import Mathlib.Data.List.AList

namespace Pictor.ArenaTrie
open List

structure Node (Key Value : Type) where
  children : AList fun _ : Key => Nat
  value : Option Value

variable {Key Value : Type} [DecidableEq Key]

def child (nodes : List (Node Key Value)) (idx : Nat) (key : Key) : Option Nat :=
  nodes[idx]?.bind fun node => node.children.lookup key

def valueAt (nodes : List (Node Key Value)) (idx : Nat) : Option Value := nodes[idx]?.bind Node.value

/-- The node at the end of a path. -/
def walk (nodes : List (Node Key Value)) : Nat → List Key → Option Nat
  | idx, [] => some idx
  | idx, key :: keys => (child nodes idx key).bind fun next => walk nodes next keys

/-- A missing child is a new node at the end of the arena. -/
def childOrNew (nodes : List (Node Key Value)) (idx : Nat) (key : Key) : Nat × List (Node Key Value) :=
  match child nodes idx key with
  | some next => (next, nodes)
  | none => (nodes.length, nodes.modify idx (fun node =>
      { node with children := node.children.insert key nodes.length }) ++ [⟨∅, none⟩])

/-- A walk that creates the missing nodes. -/
def descend (nodes : List (Node Key Value)) : Nat → List Key → Nat × List (Node Key Value)
  | idx, [] => (idx, nodes)
  | idx, key :: keys => descend (childOrNew nodes idx key).2 (childOrNew nodes idx key).1 keys

def setValue (nodes : List (Node Key Value)) (idx : Nat) (value : Option Value) :
    List (Node Key Value) :=
  nodes.modify idx fun node => { node with value }

/-- Each node has one path, which grows by one key at each edge. -/
structure Labelled (path : Nat → List Key) (nodes : List (Node Key Value)) : Prop where
  nonempty : 0 < nodes.length
  root : path 0 = []
  child : ∀ idx key next, child nodes idx key = some next →
    next < nodes.length ∧ path next = path idx ++ [key]

/-- The arena is a tree with the root 0. -/
def Rooted (nodes : List (Node Key Value)) : Prop := ∃ path, Labelled path nodes

variable {nodes : List (Node Key Value)}

theorem walk_append (idx : Nat) (keys keys' : List Key) :
    walk nodes idx (keys ++ keys') = (walk nodes idx keys).bind fun next => walk nodes next keys' := by
  induction keys generalizing idx with
  | nil => rfl
  | cons key keys ih =>
      rw [cons_append, walk, walk]
      cases child nodes idx key with
      | none => rfl
      | some next => exact ih next

theorem walk_path {path : Nat → List Key} (labelled : Labelled path nodes) {idx last : Nat}
    {keys : List Key} (walked : walk nodes idx keys = some last) : path last = path idx ++ keys := by
  induction keys generalizing idx with
  | nil =>
      cases walked
      rw [append_nil]
  | cons key keys ih =>
      obtain ⟨next, edge, rest⟩ := Option.bind_eq_some_iff.mp walked
      rw [ih rest, (labelled.child idx key next edge).2, append_assoc]
      rfl

/-- Two paths to one node are equal. -/
theorem Rooted.unique (rooted : Rooted nodes) {last : Nat} {keys keys' : List Key}
    (walked : walk nodes 0 keys = some last) (walked' : walk nodes 0 keys' = some last) : keys = keys' := by
  obtain ⟨path, labelled⟩ := rooted
  have first := walk_path labelled walked
  have second := walk_path labelled walked'
  rw [labelled.root, nil_append] at first second
  exact first.symm.trans second

theorem rooted_single : Rooted [(⟨∅, none⟩ : Node Key Value)] := by
  refine ⟨fun _ => [], Nat.one_pos, rfl, ?_⟩
  intro idx key next edge
  obtain ⟨node, present, found⟩ := Option.bind_eq_some_iff.mp edge
  have same : node = ⟨∅, none⟩ := by simpa using mem_of_getElem? present
  rw [same] at found
  cases found

section SetValue

variable (idx : Nat) (value : Option Value)

@[simp] theorem child_setValue (other : Nat) (key : Key) :
    child (setValue nodes idx value) other key = child nodes other key := by
  rw [child, child, setValue, getElem?_modify]
  cases nodes[other]? with
  | none => rfl
  | some node =>
      by_cases same : idx = other
      · subst same
        simp
      · simp [same]

omit [DecidableEq Key] in
@[simp] theorem length_setValue : (setValue nodes idx value).length = nodes.length :=
  length_modify _ _ _

@[simp] theorem walk_setValue (start : Nat) (keys : List Key) :
    walk (setValue nodes idx value) start keys = walk nodes start keys := by
  induction keys generalizing start with
  | nil => rfl
  | cons key keys ih => simp only [walk, child_setValue, ih]

omit [DecidableEq Key] in
theorem valueAt_setValue (inside : idx < nodes.length) (other : Nat) :
    valueAt (setValue nodes idx value) other = if other = idx then value else valueAt nodes other := by
  rw [valueAt, valueAt, setValue, getElem?_modify]
  by_cases same : idx = other
  · subst same
    simp [getElem?_eq_getElem inside]
  · simp [same, Ne.symm same]

theorem Rooted.setValue (rooted : Rooted nodes) : Rooted (setValue nodes idx value) := by
  obtain ⟨path, labelled⟩ := rooted
  refine ⟨path, ?_, labelled.root, ?_⟩
  · rw [length_setValue]
    exact labelled.nonempty
  · intro other key next edge
    rw [child_setValue] at edge
    rw [length_setValue]
    exact labelled.child other key next edge

end SetValue

section ChildOrNew

variable {idx : Nat} (inside : idx < nodes.length) (key : Key)
include inside

omit inside in
theorem childOrNew_missing (missing : child nodes idx key = none) :
    childOrNew nodes idx key = (nodes.length, nodes.modify idx (fun node =>
      { node with children := node.children.insert key nodes.length }) ++ [⟨∅, none⟩]) := by
  rw [childOrNew, missing]

theorem child_new (missing : child nodes idx key = none) (other : Nat) (key' : Key) :
    child (childOrNew nodes idx key).2 other key' =
      if other = idx ∧ key' = key then some nodes.length else child nodes other key' := by
  rw [childOrNew_missing key missing, child, child, getElem?_append, length_modify]
  by_cases here : other < nodes.length
  · rw [if_pos here, getElem?_modify, getElem?_eq_getElem here]
    by_cases same : idx = other
    · subst same
      by_cases equal : key' = key
      · subst equal
        simp
      · simp [equal]
    · simp [same, Ne.symm same]
  · have elsewhere : ¬(other = idx ∧ key' = key) := fun same => here (same.1 ▸ inside)
    have beyond : nodes.length ≤ other := Nat.le_of_not_lt here
    rw [if_neg here, if_neg elsewhere, getElem?_eq_none beyond]
    cases other - nodes.length with
    | zero => rfl
    | succ more => rfl

/-- The creation of a child keeps the children that exist. -/
theorem child_childOrNew {other next : Nat} {key' : Key} (edge : child nodes other key' = some next) :
    child (childOrNew nodes idx key).2 other key' = some next := by
  cases missing : child nodes idx key with
  | some old => simpa [childOrNew, missing] using edge
  | none =>
      rw [child_new inside key missing, if_neg, edge]
      rintro ⟨rfl, rfl⟩
      rw [missing] at edge
      cases edge

theorem child_childOrNew_self : child (childOrNew nodes idx key).2 idx key = some (childOrNew nodes idx key).1 := by
  cases missing : child nodes idx key with
  | some old => simp [childOrNew, missing]
  | none =>
      rw [child_new inside key missing, if_pos ⟨rfl, rfl⟩]
      simp [childOrNew, missing]

omit inside in
theorem childOrNew_inside (rooted : Rooted nodes) :
    (childOrNew nodes idx key).1 < (childOrNew nodes idx key).2.length := by
  obtain ⟨path, labelled⟩ := rooted
  unfold childOrNew
  split
  · rename_i next edge
    exact (labelled.child idx key next edge).1
  · simp

omit inside in
/-- A new node has no value. -/
theorem valueAt_childOrNew (other : Nat) : valueAt (childOrNew nodes idx key).2 other = valueAt nodes other := by
  cases missing : child nodes idx key with
  | some old => rw [childOrNew, missing]
  | none =>
    rw [childOrNew_missing key missing, valueAt, valueAt, getElem?_append, length_modify]
    by_cases here : other < nodes.length
    · rw [if_pos here, getElem?_modify, getElem?_eq_getElem here]
      by_cases same : idx = other
      · subst same
        simp
      · simp [same]
    · have beyond : nodes.length ≤ other := Nat.le_of_not_lt here
      rw [if_neg here, getElem?_eq_none beyond]
      cases other - nodes.length with
      | zero => rfl
      | succ more => rfl

theorem Rooted.childOrNew (rooted : Rooted nodes) : Rooted (childOrNew nodes idx key).2 := by
  cases missing : child nodes idx key with
  | some old => simpa [ArenaTrie.childOrNew, missing] using rooted
  | none =>
      obtain ⟨path, labelled⟩ := rooted
      have length : (ArenaTrie.childOrNew nodes idx key).2.length = nodes.length + 1 := by
        simp [ArenaTrie.childOrNew, missing]
      refine ⟨Function.update path nodes.length (path idx ++ [key]), ?_, ?_, ?_⟩
      · omega
      · have positive := labelled.nonempty
        rw [Function.update_of_ne (by omega), labelled.root]
      · intro other key' next edge
        rw [child_new inside key missing] at edge
        split at edge
        · rename_i same
          obtain ⟨rfl, rfl⟩ := same
          cases edge
          refine ⟨by omega, ?_⟩
          rw [Function.update_self, Function.update_of_ne (by omega)]
        · obtain ⟨below, grown⟩ := labelled.child other key' next edge
          have origin : other < nodes.length := by
            by_contra outside
            rw [child, getElem?_eq_none (by omega)] at edge
            cases edge
          refine ⟨by omega, ?_⟩
          rw [Function.update_of_ne (by omega), Function.update_of_ne (by omega), grown]

end ChildOrNew

/-- What a creating walk does: it ends where a plain walk then ends, and it keeps the tree, the old walks
and the values. -/
structure Descended (nodes : List (Node Key Value)) (idx : Nat) (keys : List Key)
    (result : Nat × List (Node Key Value)) : Prop where
  walked : walk result.2 idx keys = some result.1
  kept : ∀ start keys' last, walk nodes start keys' = some last → walk result.2 start keys' = some last
  values : ∀ other, valueAt result.2 other = valueAt nodes other
  rooted : Rooted result.2
  inside : result.1 < result.2.length

theorem walk_childOrNew {idx : Nat} (inside : idx < nodes.length) (key : Key) {start last : Nat}
    {keys : List Key} (walked : walk nodes start keys = some last) :
    walk (childOrNew nodes idx key).2 start keys = some last := by
  induction keys generalizing start with
  | nil => exact walked
  | cons key' keys ih =>
      obtain ⟨next, edge, rest⟩ := Option.bind_eq_some_iff.mp walked
      rw [walk, child_childOrNew inside key edge]
      exact ih rest

theorem descend_spec (rooted : Rooted nodes) {idx : Nat} (inside : idx < nodes.length)
    (keys : List Key) : Descended nodes idx keys (descend nodes idx keys) := by
  induction keys generalizing nodes idx with
  | nil => exact ⟨rfl, fun _ _ _ walked => walked, fun _ => rfl, rooted, inside⟩
  | cons key keys ih =>
      have next : (childOrNew nodes idx key).1 < (childOrNew nodes idx key).2.length :=
        childOrNew_inside key rooted
      obtain ⟨walked, kept, values, rooted', inside'⟩ := ih (rooted.childOrNew inside key) next
      constructor
      · have edge := kept idx [key] (childOrNew nodes idx key).1
          (by simp [walk, child_childOrNew_self inside key])
        rw [descend, ← singleton_append, walk_append, edge]
        exact walked
      · intro start keys' last old
        exact kept start keys' last (walk_childOrNew inside key old)
      · intro other
        exact (values other).trans (valueAt_childOrNew key other)
      · exact rooted'
      · exact inside'

end Pictor.ArenaTrie
