import Pictor.Library.LabelledGraph
import Pictor.Proof.Grammar.RegexParse

namespace Pictor.Nfa
open List

open LabelledGraph Outcome

/-- The edges of the table of states. -/
def edge (nfa : Nfa) : Edges Nat UInt8
  | p, none, q => q ∈ (nfa.stateAt p).epsilon
  | p, some b, q => ∃ label, (label, q) ∈ (nfa.stateAt p).transitions ∧ label.contains b = true

variable {nfa nfa' nfa₁ nfa₂ nfa₃ : Nfa} {p q source target : Nat} {x : Option UInt8}

theorem stateAt_outside (outside : nfa.states.length ≤ p) : nfa.stateAt p = .new := by
  rw [stateAt, getD_eq_getElem?_getD, getElem?_eq_none outside, Option.getD_none]

/-- A state without an entry in the table has no edge. -/
theorem edge_inside (step : nfa.edge p x q) : p < nfa.states.length := by
  by_contra outside
  have missing : nfa.stateAt p = .new := stateAt_outside (Nat.le_of_not_lt outside)
  cases x with
  | none =>
      rw [edge, missing] at step
      exact absurd step not_mem_nil
  | some b =>
      rw [edge, missing] at step
      obtain ⟨label, member, _⟩ := step
      exact absurd member not_mem_nil

/-- A fresh state changes no state. -/
theorem stateAt_append_new (p : Nat) : (Nfa.mk (nfa.states ++ [.new])).stateAt p = nfa.stateAt p := by
  rw [stateAt, stateAt, getD_eq_getElem?_getD, getD_eq_getElem?_getD, getElem?_append]
  split
  · rfl
  · rename_i outside
    rw [getElem?_eq_none (Nat.le_of_not_lt outside), getElem?_singleton]
    split <;> rfl

theorem length_modifyState (change : NfaState → NfaState) :
    (nfa.modifyState source change).states.length = nfa.states.length :=
  length_modify ..

theorem stateAt_modifyState_ne (change : NfaState → NfaState) (other : source ≠ p) :
    (nfa.modifyState source change).stateAt p = nfa.stateAt p := by
  rw [stateAt, stateAt, modifyState, getD_eq_getElem?_getD, getD_eq_getElem?_getD,
    getElem?_modify_ne _ _ other]

theorem stateAt_modifyState_self (change : NfaState → NfaState) (inside : source < nfa.states.length) :
    (nfa.modifyState source change).stateAt source = change (nfa.stateAt source) := by
  rw [stateAt, stateAt, modifyState, getD_eq_getElem?_getD, getD_eq_getElem?_getD,
    getElem?_modify_eq, getElem?_eq_getElem inside]
  rfl

/-- A silent edge is added to the edges. -/
theorem edge_withEpsilon (inside : source < nfa.states.length) : (nfa.withEpsilon source target).edge p x q ↔
      nfa.edge p x q ∨ (p = source ∧ x = none ∧ q = target) := by
  by_cases here : source = p
  · subst here
    have state := stateAt_modifyState_self
      (fun state => { state with epsilon := state.epsilon ++ [target] }) inside
    cases x with
    | none => simp only [edge, withEpsilon, state, mem_append, mem_singleton, true_and]
    | some b => simp only [edge, withEpsilon, state, reduceCtorEq, false_and, and_false, or_false]
  · have state := @stateAt_modifyState_ne nfa _ _
      (fun state => { state with epsilon := state.epsilon ++ [target] }) here
    have other : ¬p = source := fun same => here same.symm
    cases x <;> simp only [edge, withEpsilon, state, other, false_and, or_false]

/-- A lettered edge is added to the edges. -/
theorem edge_withTransition (inside : source < nfa.states.length) :
    (nfa.withTransition source label target).edge p x q ↔
      nfa.edge p x q ∨ (p = source ∧ q = target ∧ ∃ b, x = some b ∧ label.contains b = true) := by
  by_cases here : source = p
  · subst here
    have state := stateAt_modifyState_self
      (fun state => { state with transitions := state.transitions ++ [(label, target)] }) inside
    cases x with
    | none => simp [edge, withTransition, state]
    | some b =>
        simp only [edge, withTransition, state, mem_append, mem_singleton, Prod.mk.injEq,
          true_and, Option.some.injEq]
        constructor
        · rintro ⟨other, old | ⟨rfl, rfl⟩, has⟩
          · exact Or.inl ⟨other, old, has⟩
          · exact Or.inr ⟨rfl, b, rfl, has⟩
        · rintro (⟨other, old, has⟩ | ⟨rfl, _, rfl, has⟩)
          · exact ⟨other, Or.inl old, has⟩
          · exact ⟨label, Or.inr ⟨rfl, rfl⟩, has⟩
  · have state := @stateAt_modifyState_ne nfa _ _
      (fun state => { state with transitions := state.transitions ++ [(label, target)] }) here
    have other : ¬p = source := fun same => here same.symm
    cases x <;> simp only [edge, withTransition, state, other, false_and, or_false]

/-- A build adds states and silent links to the table. -/
structure Linked (nfa nfa' : Nfa) (count : Nat) (links : List (Nat × Nat)) : Prop where
  length : nfa'.states.length = nfa.states.length + count
  edges : ∀ p x q, nfa'.edge p x q ↔ nfa.edge p x q ∨ (x = none ∧ (p, q) ∈ links)
  kept : ∀ p, (∀ link ∈ links, link.1 ≠ p) → nfa'.stateAt p = nfa.stateAt p

theorem Linked.refl (nfa : Nfa) : Linked nfa nfa 0 [] where
  length := rfl
  edges p x q := by simp only [not_mem_nil, and_false, or_false]
  kept _ _ := rfl

variable {count : Nat} {links : List (Nat × Nat)} {id : Nat}

theorem Linked.alloc (linked : Linked nfa nfa₁ count []) (run : alloc nfa₁ = .ok (id, nfa₂)) :
    id = nfa.states.length + count ∧ Linked nfa nfa₂ (count + 1) [] := by
  rw [Nfa.alloc] at run
  split at run
  · cases run
  · cases run
    refine ⟨linked.length, ⟨?_, fun p x q => ?_, fun p apart => ?_⟩⟩
    · rw [length_append, length_singleton, linked.length, Nat.add_assoc]
    · rw [← linked.edges p x q]
      cases x <;> simp only [edge, stateAt_append_new]
    · rw [stateAt_append_new, linked.kept p apart]

theorem Linked.withEpsilon (linked : Linked nfa nfa₁ count links) (inside : source < nfa.states.length + count) :
    Linked nfa (nfa₁.withEpsilon source target) count (links ++ [(source, target)]) where
  length := by rw [Nfa.withEpsilon, length_modifyState, linked.length]
  edges p x q := by
    rw [edge_withEpsilon (by rw [linked.length]; exact inside), linked.edges, mem_append,
      mem_singleton, Prod.mk.injEq]
    tauto
  kept p apart := by
    have here : source ≠ p := apart (source, target) (by simp)
    rw [Nfa.withEpsilon, stateAt_modifyState_ne _ here]
    exact linked.kept p fun link member => apart link (mem_append_left _ member)

variable {a b frag : NfaFrag} {label : ByteSet}

theorem buildEmpty_run (run : buildEmpty nfa = .ok (frag, nfa')) :
    (frag.start = nfa.states.length ∧ frag.finish = nfa.states.length) ∧ Linked nfa nfa' 1 [] := by
  obtain ⟨state, _, alloc, run⟩ := state_bind_ok run
  obtain ⟨rfl, linked⟩ := (Linked.refl nfa).alloc alloc
  cases run
  exact ⟨⟨rfl, rfl⟩, linked⟩

/-- Most builds start with two fresh states. -/
theorem twoStates_run {rest : Nat → Nat → NfaBuild NfaFrag}
    (run : (do rest (← Nfa.alloc) (← Nfa.alloc)) nfa = .ok (frag, nfa')) :
    ∃ middle, Linked nfa middle 2 [] ∧ rest nfa.states.length (nfa.states.length + 1) middle = .ok (frag, nfa') := by
  obtain ⟨start, _, alloc, run⟩ := state_bind_ok run
  obtain ⟨rfl, linked⟩ := (Linked.refl nfa).alloc alloc
  obtain ⟨finish, middle, alloc, run⟩ := state_bind_ok run
  obtain ⟨rfl, linked⟩ := linked.alloc alloc
  exact ⟨middle, linked, run⟩

/-- The first of two fresh states has the lettered edges to the second one. -/
theorem buildByteSet_run (run : buildByteSet label nfa = .ok (frag, nfa')) :
    (frag.start = nfa.states.length ∧ frag.finish = nfa.states.length + 1) ∧
      (∀ p x q, nfa.states.length ≤ p → (nfa'.edge p x q ↔ p = nfa.states.length ∧
        q = nfa.states.length + 1 ∧ ∃ b, x = some b ∧ label.contains b = true)) ∧
      nfa'.states.length = nfa.states.length + 2 ∧ ∀ p < nfa.states.length, nfa'.stateAt p = nfa.stateAt p := by
  obtain ⟨middle, linked, run⟩ := twoStates_run run
  cases run
  have length := linked.length
  refine ⟨⟨rfl, rfl⟩, fun p x q fresh => ?_, ?_, fun p old => ?_⟩
  · have none : ¬middle.edge p x q := by
      rw [linked.edges p x q]
      rintro (old | ⟨_, link⟩)
      · exact absurd (edge_inside old) (Nat.not_lt.mpr fresh)
      · exact absurd link not_mem_nil
    rw [edge_withTransition (by omega)]
    simp only [none, false_or]
  · rw [withTransition, length_modifyState, length]
  · rw [withTransition, stateAt_modifyState_ne _ (by omega)]
    exact linked.kept p (by simp)

theorem buildConcat_run (run : buildConcat a b nfa = .ok (frag, nfa')) (inside : a.finish < nfa.states.length) :
    (frag.start = a.start ∧ frag.finish = b.finish) ∧ Linked nfa nfa' 0 [(a.finish, b.start)] := by
  cases run
  exact ⟨⟨rfl, rfl⟩, (Linked.refl nfa).withEpsilon inside⟩

theorem buildAlternation_run (run : buildAlternation a b nfa = .ok (frag, nfa'))
    (inside : a.finish < nfa.states.length) (inside' : b.finish < nfa.states.length) :
    (frag.start = nfa.states.length ∧ frag.finish = nfa.states.length + 1) ∧
      Linked nfa nfa' 2 [(nfa.states.length, a.start), (nfa.states.length, b.start),
        (a.finish, nfa.states.length + 1), (b.finish, nfa.states.length + 1)] := by
  obtain ⟨_, linked, run⟩ := twoStates_run run
  cases run
  refine ⟨⟨rfl, rfl⟩, ?_⟩
  exact (((linked.withEpsilon (by omega)).withEpsilon (by omega)).withEpsilon (by omega)).withEpsilon
    (by omega)

theorem buildStar_run (run : buildStar a nfa = .ok (frag, nfa')) (inside : a.finish < nfa.states.length) :
    (frag.start = nfa.states.length ∧ frag.finish = nfa.states.length + 1) ∧
      Linked nfa nfa' 2 [(nfa.states.length, a.start), (nfa.states.length, nfa.states.length + 1),
        (a.finish, a.start), (a.finish, nfa.states.length + 1)] := by
  obtain ⟨_, linked, run⟩ := twoStates_run run
  cases run
  refine ⟨⟨rfl, rfl⟩, ?_⟩
  exact (((linked.withEpsilon (by omega)).withEpsilon (by omega)).withEpsilon (by omega)).withEpsilon
    (by omega)

theorem buildPlus_run (run : buildPlus a nfa = .ok (frag, nfa')) (inside : a.finish < nfa.states.length) :
    (frag.start = a.start ∧ frag.finish = nfa.states.length + 1) ∧
      Linked nfa nfa' 2 [(a.finish, nfa.states.length), (nfa.states.length, a.start),
        (nfa.states.length, nfa.states.length + 1)] := by
  obtain ⟨_, linked, run⟩ := twoStates_run run
  cases run
  refine ⟨⟨rfl, rfl⟩, ?_⟩
  exact ((linked.withEpsilon (by omega)).withEpsilon (by omega)).withEpsilon (by omega)

theorem buildOptional_run (run : buildOptional a nfa = .ok (frag, nfa')) (inside : a.finish < nfa.states.length) :
    (frag.start = nfa.states.length ∧ frag.finish = nfa.states.length + 1) ∧
      Linked nfa nfa' 2 [(nfa.states.length, a.start), (nfa.states.length, nfa.states.length + 1),
        (a.finish, nfa.states.length + 1)] := by
  obtain ⟨_, linked, run⟩ := twoStates_run run
  cases run
  refine ⟨⟨rfl, rfl⟩, ?_⟩
  exact ((linked.withEpsilon (by omega)).withEpsilon (by omega)).withEpsilon (by omega)

/-- A fragment in a closed region of the table has a language. -/
structure Part (nfa : Nfa) (region : Set Nat) (frag : NfaFrag) (language : Language UInt8) : Prop where
  start : frag.start ∈ region
  finish : frag.finish ∈ region
  closed : ∀ p x q, p ∈ region → nfa.edge p x q → q ∈ region
  words : between nfa.edge frag.start frag.finish = language

variable {region : Set Nat} {language language' : Language UInt8}

/-- A change outside the region keeps the language. -/
theorem Part.keep (part : Part nfa region a language)
    (kept : ∀ p ∈ region, nfa'.stateAt p = nfa.stateAt p) : Part nfa' region a language := by
  have same : ∀ p x q, p ∈ region → (nfa'.edge p x q ↔ nfa.edge p x q) := by
    intro p x q inside
    cases x <;> simp only [edge, kept p inside]
  refine ⟨part.start, part.finish, ?_, ?_⟩
  · exact fun p x q inside step => part.closed p x q inside ((same p x q inside).mp step)
  · rw [between_agree part.closed same part.start]
    exact part.words

/-- The links of a region leave it at the end of its fragment. -/
theorem Part.leaves (part : Part nfa region a language) (linked : Linked nfa nfa' count links)
    (only : ∀ p ∈ region, ∀ q, (p, q) ∈ links → p = a.finish ∧ q ∈ targets) (new : ∀ q ∈ targets, (a.finish, q) ∈ links) :
    Leaves nfa.edge nfa'.edge region a.finish targets where
  closed := part.closed
  old p x q _ step := (linked.edges p x q).mpr (Or.inl step)
  only p x q inside step := by
    rcases (linked.edges p x q).mp step with old | ⟨silent, link⟩
    · exact Or.inl old
    · obtain ⟨atEnd, target⟩ := only p inside q link
      exact Or.inr ⟨atEnd, silent, target⟩
  new q target := (linked.edges a.finish none q).mpr (Or.inr ⟨rfl, new q target⟩)

/-- A fresh state has only its links. -/
theorem Linked.hub (linked : Linked nfa nfa' count links) (fresh : nfa.states.length ≤ p)
    (same : ∀ q, (p, q) ∈ links ↔ q ∈ targets) : Hub nfa'.edge p targets := by
  intro x q
  rw [linked.edges p x q, same q]
  constructor
  · rintro (old | new)
    · exact absurd (edge_inside old) (Nat.not_lt.mpr fresh)
    · exact new
  · exact Or.inr

/-- A build keeps the states that exist before it, and the edges of the new states stay among them. -/
structure Grown (nfa nfa' : Nfa) : Prop where
  grows : nfa.states.length ≤ nfa'.states.length
  kept : ∀ p < nfa.states.length, nfa'.stateAt p = nfa.stateAt p
  closed : ∀ p x q, nfa.states.length ≤ p → nfa'.edge p x q →
    nfa.states.length ≤ q ∧ q < nfa'.states.length

theorem Grown.trans (first : Grown nfa nfa₁) (second : Grown nfa₁ nfa₂) : Grown nfa nfa₂ where
  grows := first.grows.trans second.grows
  kept p old := by rw [second.kept p (old.trans_le first.grows), first.kept p old]
  closed p x q fresh step := by
    have grows := first.grows
    have grows' := second.grows
    by_cases before : p < nfa₁.states.length
    · have same : nfa₁.edge p x q := by
        cases x <;> simpa only [edge, second.kept p before] using step
      have within := first.closed p x q fresh same
      omega
    · have within := second.closed p x q (Nat.le_of_not_lt before) step
      omega

/-- Links among the new states extend the growth. -/
theorem Grown.link (grown : Grown nfa nfa₁) (linked : Linked nfa₁ nfa₂ count links)
    (among : ∀ link ∈ links, nfa.states.length ≤ link.1 ∧ nfa.states.length ≤ link.2 ∧
      link.2 < nfa₁.states.length + count) : Grown nfa nfa₂ where
  grows := by
    rw [linked.length]
    exact grown.grows.trans (Nat.le_add_right _ count)
  kept p old := by
    rw [linked.kept p, grown.kept p old]
    intro link member same
    have fresh := (among link member).1
    omega
  closed p x q fresh step := by
    rw [linked.length]
    rcases (linked.edges p x q).mp step with old | ⟨_, link⟩
    · have within := grown.closed p x q fresh old
      omega
    · exact (among (p, q) link).2

/-- A build adds a fragment with a language behind the states that exist before it. -/
structure Built (nfa nfa' : Nfa) (frag : NfaFrag) (language : Language UInt8) : Prop
    extends Grown nfa nfa' where
  start : nfa.states.length ≤ frag.start ∧ frag.start < nfa'.states.length
  finish : nfa.states.length ≤ frag.finish ∧ frag.finish < nfa'.states.length
  words : between nfa'.edge frag.start frag.finish = language

theorem Built.part (built : Built nfa nfa' frag language) :
    Part nfa' (Set.Ico nfa.states.length nfa'.states.length) frag language where
  start := built.start
  finish := built.finish
  closed p x q inside := built.closed p x q inside.1
  words := built.words

/-- The first fragment survives the second build. -/
theorem Built.partAfter (first : Built nfa nfa₁ a language) (grown : Grown nfa₁ nfa₂) :
    Part nfa₂ (Set.Ico nfa.states.length nfa₁.states.length) a language :=
  first.part.keep fun p inside => grown.kept p inside.2

theorem Built.empty (run : buildEmpty nfa = .ok (frag, nfa')) : Built nfa nfa' frag 1 := by
  obtain ⟨⟨entry, exit⟩, linked⟩ := buildEmpty_run run
  have length := linked.length
  have none : ∀ p x q, nfa.states.length ≤ p → ¬nfa'.edge p x q := by
    intro p x q fresh step
    have hub : Hub nfa'.edge p ∅ := linked.hub fresh (by simp)
    exact ((hub x q).mp step).2
  refine ⟨⟨by omega, fun p _ => linked.kept p (by simp), ?_⟩, by omega, by omega, ?_⟩
  · exact fun p x q fresh step => absurd step (none p x q fresh)
  · ext word
    rw [entry, exit, mem_between, Language.mem_one]
    constructor
    · intro path
      cases path with
      | refl => rfl
      | silent step _ => exact absurd step (none _ _ _ le_rfl)
      | letter step _ => exact absurd step (none _ _ _ le_rfl)
    · rintro rfl
      exact .refl _

theorem Built.byteSet (run : buildByteSet label nfa = .ok (frag, nfa')) :
    Built nfa nfa' frag (RegexNode.byteClass label).language := by
  obtain ⟨⟨entry, exit⟩, edges, length, kept⟩ := buildByteSet_run run
  refine ⟨⟨by omega, kept, ?_⟩, by omega, by omega, ?_⟩
  · intro p x q fresh step
    obtain ⟨_, rfl, _⟩ := (edges p x q fresh).mp step
    omega
  · ext word
    rw [entry, exit, mem_between, RegexNode.language]
    constructor
    · -- The path has one letter, because the end has no edge.
      intro path
      have read {p q : Nat} (path : Path nfa'.edge p word q) (first : p = nfa.states.length)
          (last : q = nfa.states.length + 1) : ∃ b, label.contains b = true ∧ word = [b] := by
        cases path with
        | refl => omega
        | silent step _ =>
            obtain ⟨_, _, b, wrong, _⟩ := (edges _ _ _ first.ge).mp step
            cases wrong
        | letter step rest =>
            obtain ⟨_, here, b, same, has⟩ := (edges _ _ _ first.ge).mp step
            cases same
            cases rest with
            | refl => exact ⟨_, has, rfl⟩
            | silent step _ =>
                obtain ⟨wrong, _⟩ := (edges _ _ _ (by omega)).mp step
                omega
            | letter step _ =>
                obtain ⟨wrong, _⟩ := (edges _ _ _ (by omega)).mp step
                omega
      exact read path rfl rfl
    · rintro ⟨b, has, rfl⟩
      exact .letter ((edges _ _ _ le_rfl).mpr ⟨rfl, rfl, b, rfl, has⟩) (.refl _)

section Glue

variable (first : Built nfa nfa₁ a language)
include first

theorem Built.concat (second : Built nfa₁ nfa₂ b language')
    (run : buildConcat a b nfa₂ = .ok (frag, nfa₃)) : Built nfa nfa₃ frag (language * language') := by
  have grows := first.grows
  have start := first.start
  have finish := first.finish
  have grows' := second.grows
  have start' := second.start
  have finish' := second.finish
  obtain ⟨⟨entry, exit⟩, linked⟩ := buildConcat_run run (by omega)
  have length := linked.length
  have part := first.partAfter second.toGrown
  have grown := first.toGrown.trans second.toGrown
  refine ⟨grown.link linked ?_, by omega, by omega, ?_⟩
  · simp only [mem_singleton, forall_eq]
    omega
  · rw [entry, exit, ← part.words, ← second.words]
    apply between_concat _ _ part.start second.part.start _ second.part.finish
    · apply part.leaves linked
      · simp
      · simp
    · apply second.part.leaves linked
      · simp only [Set.mem_Ico, mem_singleton, Prod.mk.injEq]
        omega
      · simp
    · intro p here there
      exact absurd here.2 (Nat.not_lt.mpr there.1)

theorem Built.alternation (second : Built nfa₁ nfa₂ b language')
    (run : buildAlternation a b nfa₂ = .ok (frag, nfa₃)) : Built nfa nfa₃ frag (language + language') := by
  have grows := first.grows
  have start := first.start
  have finish := first.finish
  have grows' := second.grows
  have start' := second.start
  have finish' := second.finish
  obtain ⟨⟨entry, exit⟩, linked⟩ := buildAlternation_run run (by omega) (by omega)
  have length := linked.length
  have part := first.partAfter second.toGrown
  have grown := first.toGrown.trans second.toGrown
  refine ⟨grown.link linked ?_, by omega, by omega, ?_⟩
  · simp only [mem_cons, not_mem_nil, or_false, forall_eq_or_imp, forall_eq]
    omega
  · rw [entry, exit, ← part.words, ← second.words]
    have leaves : Leaves nfa₂.edge nfa₃.edge (Set.Ico nfa.states.length nfa₁.states.length) a.finish
        {nfa₂.states.length + 1} := by
      apply part.leaves linked
      · simp
        omega
      · simp
    have leaves' : Leaves nfa₂.edge nfa₃.edge (Set.Ico nfa₁.states.length nfa₂.states.length) b.finish
        {nfa₂.states.length + 1} := by
      apply second.part.leaves linked
      · simp
        omega
      · simp
    have hub : Hub nfa₃.edge nfa₂.states.length {a.start, b.start} := by
      apply linked.hub le_rfl
      simp
      omega
    have last : Hub nfa₃.edge (nfa₂.states.length + 1) ∅ := by
      apply linked.hub (by omega)
      simp
      omega
    apply between_alternation _ (by omega) last part.start leaves leaves' _ second.part.start hub
    · exact Set.notMem_Ico_of_ge (grows'.trans (Nat.le_succ _))
    · exact Set.notMem_Ico_of_ge (Nat.le_succ _)

/-- The links of two fresh states around a fragment. -/
theorem Built.around (linked : Linked nfa₁ nfa₂ 2 links) {targets hub : Set Nat}
    (only : ∀ link ∈ links, link.1 = a.finish ∨ link.1 = nfa₁.states.length)
    (leaves : ∀ q, (a.finish, q) ∈ links ↔ q ∈ targets) (hubs : ∀ q, (nfa₁.states.length, q) ∈ links ↔ q ∈ hub) :
    Leaves nfa₁.edge nfa₂.edge (Set.Ico nfa.states.length nfa₁.states.length) a.finish targets ∧
      Hub nfa₂.edge nfa₁.states.length hub ∧ Hub nfa₂.edge (nfa₁.states.length + 1) ∅ := by
  have finish := first.finish
  refine ⟨first.part.leaves linked (fun p inside q link => ?_) fun q => (leaves q).mpr, linked.hub le_rfl hubs,
    linked.hub (Nat.le_succ _) fun q => ⟨fun link => ?_, fun wrong => absurd wrong (Set.notMem_empty q)⟩⟩
  · rcases only _ link with rfl | last
    · exact ⟨rfl, (leaves q).mp link⟩
    · exact absurd inside.2 last.ge.not_gt
  · have := only _ link
    omega

theorem Built.star (run : buildStar a nfa₁ = .ok (frag, nfa₂)) : Built nfa nfa₂ frag (KStar.kstar language) := by
  have grows := first.grows
  have start := first.start
  have finish := first.finish
  obtain ⟨⟨entry, exit⟩, linked⟩ := buildStar_run run finish.2
  have length := linked.length
  refine ⟨first.toGrown.link linked ?_, by omega, by omega, ?_⟩
  · simp only [mem_cons, not_mem_nil, or_false, forall_eq_or_imp, forall_eq]
    omega
  · rw [entry, exit, ← first.words]
    obtain ⟨leaves, hub, last⟩ := @Built.around _ _ _ _ _ _ first linked {a.start, nfa₁.states.length + 1}
      {a.start, nfa₁.states.length + 1} (by simp) (by simp; omega) (by simp; omega)
    exact between_star (Set.notMem_Ico_of_ge le_rfl) (Set.notMem_Ico_of_ge (Nat.le_succ _)) (by omega) last
      first.part.start leaves hub

theorem Built.plus (run : buildPlus a nfa₁ = .ok (frag, nfa₂)) :
    Built nfa nfa₂ frag (language * KStar.kstar language) := by
  have grows := first.grows
  have start := first.start
  have finish := first.finish
  obtain ⟨⟨entry, exit⟩, linked⟩ := buildPlus_run run finish.2
  have length := linked.length
  refine ⟨first.toGrown.link linked ?_, by omega, by omega, ?_⟩
  · simp only [mem_cons, not_mem_nil, or_false, forall_eq_or_imp, forall_eq]
    omega
  · rw [entry, exit, ← first.words]
    obtain ⟨leaves, hub, last⟩ := @Built.around _ _ _ _ _ _ first linked {nfa₁.states.length}
      {a.start, nfa₁.states.length + 1} (by simp) (by simp; omega) (by simp; omega)
    exact between_plus (Set.notMem_Ico_of_ge le_rfl) (Set.notMem_Ico_of_ge (Nat.le_succ _)) (by omega) last
      first.part.start leaves hub

theorem Built.optional (run : buildOptional a nfa₁ = .ok (frag, nfa₂)) : Built nfa nfa₂ frag (language + 1) := by
  have grows := first.grows
  have start := first.start
  have finish := first.finish
  obtain ⟨⟨entry, exit⟩, linked⟩ := buildOptional_run run finish.2
  have length := linked.length
  refine ⟨first.toGrown.link linked ?_, by omega, by omega, ?_⟩
  · simp only [mem_cons, not_mem_nil, or_false, forall_eq_or_imp, forall_eq]
    omega
  · rw [entry, exit, ← first.words]
    obtain ⟨leaves, hub, last⟩ := @Built.around _ _ _ _ _ _ first linked {nfa₁.states.length + 1}
      {a.start, nfa₁.states.length + 1} (by simp) (by simp; omega) (by simp; omega)
    exact between_optional (Set.notMem_Ico_of_ge (Nat.le_succ _)) (by omega) last first.part.start leaves hub

end Glue

/-- Every successful run of a build adds a fragment with the language. -/
def Makes (build : NfaBuild NfaFrag) (language : Language UInt8) : Prop :=
  ∀ nfa frag nfa', build nfa = .ok (frag, nfa') → Built nfa nfa' frag language

variable {build : NfaBuild NfaFrag} {targets : Set Nat}

theorem Makes.empty : Makes buildEmpty 1 := fun _ _ _ => Built.empty

theorem Makes.optional (makes : Makes build language) : Makes (do buildOptional (← build)) (language + 1) := by
  intro nfa frag nfa' run
  obtain ⟨a, middle, first, run⟩ := state_bind_ok run
  exact (makes nfa a middle first).optional run

/-- Each further copy multiplies the language. -/
theorem Makes.more (makes : Makes build language) (count : Nat) (first : Built nfa nfa₁ a language')
    (run : buildMore build count a nfa₁ = .ok (frag, nfa₂)) : Built nfa nfa₂ frag (language' * language ^ count) := by
  induction count generalizing a nfa₁ language' with
  | zero =>
      cases run
      rw [pow_zero, mul_one]
      exact first
  | succ count ih =>
      obtain ⟨next, _, build, run⟩ := state_bind_ok run
      obtain ⟨joined, _, concat, run⟩ := state_bind_ok run
      have both := first.concat (makes _ _ _ build) concat
      rw [pow_succ', ← mul_assoc]
      exact ih both run

/-- The copies have the power of the language. -/
theorem Makes.copies (makes : Makes build language) (count : Nat) :
    Makes (buildCopies build count) (language ^ count) := by
  cases count with
  | zero =>
      rw [pow_zero]
      exact .empty
  | succ count =>
      intro nfa frag nfa' run
      obtain ⟨first, middle, build, run⟩ := state_bind_ok run
      rw [pow_succ']
      exact makes.more count (makes nfa first middle build) run

theorem Built.concatRest (nodes : List RegexNode) (each : ∀ node ∈ nodes, Makes (buildNfaFrag node) node.language)
    (first : Built nfa nfa₁ a language) (run : buildConcatRest nodes a nfa₁ = .ok (frag, nfa₂)) :
    Built nfa nfa₂ frag (language * concatLanguage nodes) := by
  induction nodes generalizing a nfa₁ language with
  | nil =>
      rw [buildConcatRest] at run
      cases run
      rw [concatLanguage, mul_one]
      exact first
  | cons node nodes ih =>
      rw [buildConcatRest] at run
      obtain ⟨next, _, build, run⟩ := state_bind_ok run
      obtain ⟨joined, _, concat, run⟩ := state_bind_ok run
      have both := first.concat (each node mem_cons_self _ _ _ build) concat
      rw [concatLanguage, ← mul_assoc]
      exact ih (fun other member => each other (mem_cons_of_mem _ member)) both run

theorem Built.alternationRest (nodes : List RegexNode)
    (each : ∀ node ∈ nodes, Makes (buildNfaFrag node) node.language)
    (first : Built nfa nfa₁ a language) (run : buildAlternationRest nodes a nfa₁ = .ok (frag, nfa₂)) :
    Built nfa nfa₂ frag (language + alternationLanguage nodes) := by
  induction nodes generalizing a nfa₁ language with
  | nil =>
      rw [buildAlternationRest] at run
      cases run
      rw [alternationLanguage, add_zero]
      exact first
  | cons node nodes ih =>
      rw [buildAlternationRest] at run
      obtain ⟨next, _, build, run⟩ := state_bind_ok run
      obtain ⟨joined, _, alternation, run⟩ := state_bind_ok run
      have both := first.alternation (each node mem_cons_self _ _ _ build) alternation
      rw [alternationLanguage, ← add_assoc]
      exact ih (fun other member => each other (mem_cons_of_mem _ member)) both run

/-- The fragment of a well-formed tree has the language of the tree. -/
theorem buildNfaFrag_makes {node : RegexNode} (wellFormed : node.WellFormed) :
    Makes (buildNfaFrag node) node.language := by
  induction wellFormed with
  | empty =>
      rw [buildNfaFrag, RegexNode.language]
      exact .empty
  | byteClass set =>
      rw [buildNfaFrag]
      exact fun nfa frag nfa' => Built.byteSet
  | concat each ih =>
      rename_i nodes
      intro nfa frag nfa' run
      cases nodes with
      | nil =>
          rw [buildNfaFrag] at run
          rw [RegexNode.language, concatLanguage]
          exact .empty run
      | cons node nodes =>
          rw [buildNfaFrag] at run
          obtain ⟨first, middle, build, run⟩ := state_bind_ok run
          rw [RegexNode.language, concatLanguage]
          apply Built.concatRest nodes _ (ih node mem_cons_self nfa first middle build) run
          exact fun other member => ih other (mem_cons_of_mem _ member)
  | alternation some each ih =>
      rename_i nodes
      intro nfa frag nfa' run
      cases nodes with
      | nil => exact absurd rfl some
      | cons node nodes =>
          rw [buildNfaFrag] at run
          obtain ⟨first, middle, build, run⟩ := state_bind_ok run
          rw [RegexNode.language, alternationLanguage]
          apply Built.alternationRest nodes _ (ih node mem_cons_self nfa first middle build) run
          exact fun other member => ih other (mem_cons_of_mem _ member)
  | star _ ih =>
      intro nfa frag nfa' run
      rw [buildNfaFrag] at run
      obtain ⟨first, middle, build, run⟩ := state_bind_ok run
      rw [RegexNode.language]
      exact (ih nfa first middle build).star run
  | plus _ ih =>
      intro nfa frag nfa' run
      rw [buildNfaFrag] at run
      obtain ⟨first, middle, build, run⟩ := state_bind_ok run
      rw [RegexNode.language]
      exact (ih nfa first middle build).plus run
  | optional _ ih =>
      rw [buildNfaFrag, RegexNode.language]
      exact ih.optional
  | countedExact n _ ih =>
      rw [buildNfaFrag, RegexNode.language]
      exact ih.copies n
  | countedRange _ ordered ih =>
      rename_i inner n m _
      intro nfa frag nfa' run
      cases m with
      | none =>
          rw [buildNfaFrag] at run
          obtain ⟨mandatory, middle, copies, run⟩ := state_bind_ok run
          obtain ⟨first, middle', build, run⟩ := state_bind_ok run
          obtain ⟨star, last, loop, run⟩ := state_bind_ok run
          rw [RegexNode.language, ← pow_mul_kstar]
          have tail := (ih middle first middle' build).star loop
          exact (ih.copies n nfa mandatory middle copies).concat tail run
      | some m =>
          have ordered : n ≤ m := ordered m rfl
          rw [buildNfaFrag] at run
          obtain ⟨mandatory, middle, copies, run⟩ := state_bind_ok run
          have head := ih.copies n nfa mandatory middle copies
          rw [RegexNode.language, ← pow_mul_optional_pow _ ordered]
          split at run
          · rename_i same
            cases run
            rw [same, Nat.sub_self, pow_zero, mul_one]
            exact head
          · obtain ⟨optional, last, build, run⟩ := state_bind_ok run
            exact head.concat (ih.optional.copies (m - n) middle optional last build) run

end Pictor.Nfa
