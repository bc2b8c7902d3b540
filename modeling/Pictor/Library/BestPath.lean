import Mathlib.Algebra.Order.Monoid.Defs
import Mathlib.Algebra.BigOperators.Group.List.Basic

namespace Pictor.BestPath
open List

structure Edge (Label Weight : Type) where
  label : Label
  length : Nat
  weight : Weight

/-- The best total of each position, and the last edge of its path. -/
structure Table (Label Weight : Type) where
  bestScore : List (Option Weight)
  bestBack : List (Option (Label × Nat))

variable {Label Weight : Type}

/-- The paths from the position zero. -/
inductive Path [AddCommMonoid Weight] (edges : Nat → Edge Label Weight → Prop) : Nat → List Label → Weight → Prop
  | nil : Path edges 0 [] 0
  | snoc {pos : Nat} {labels : List Label} {total : Weight} (edge : Edge Label Weight) :
      Path edges pos labels total → edges pos edge →
      Path edges (pos + edge.length) (labels ++ [edge.label]) (total + edge.weight)

theorem Path.mono [AddCommMonoid Weight] {edges' : Nat → Edge Label Weight → Prop} {pos : Nat}
    (path : Path edges pos labels total) (subset : ∀ pos edge, edges pos edge → edges' pos edge) :
    Path edges' pos labels total := by
  induction path with
  | nil => exact .nil
  | snoc edge _ step ih => exact ih.snoc edge (subset _ edge step)

/-- The labels fix the total when they fix the weights. -/
theorem Path.total_eq [AddCommMonoid Weight] {edges : Nat → Edge Label Weight → Prop} {weightOf : Label → Weight}
    {pos : Nat} {labels : List Label} {total : Weight} (path : Path edges pos labels total)
    (weights : ∀ pos edge, edges pos edge → edge.weight = weightOf edge.label) :
    total = (labels.map weightOf).sum := by
  induction path with
  | nil => rfl
  | snoc edge _ step ih =>
      rw [map_append, List.sum_append, ih, weights _ edge step, map_cons, map_nil, sum_singleton]

namespace Table

def start [Zero Weight] (size : Nat) : Table Label Weight :=
  ⟨(List.replicate (size + 1) none).set 0 (some 0), List.replicate (size + 1) none⟩

def scoreAt (table : Table Label Weight) (pos : Nat) : Option Weight := table.bestScore.getD pos none

def backAt (table : Table Label Weight) (pos : Nat) : Option (Label × Nat) := table.bestBack.getD pos none

/-- A position without a path is improved by every total. -/
def improves [LinearOrder Weight] (table : Table Label Weight) (pos : Nat) (total : Weight) : Bool :=
  match table.scoreAt pos with
  | none => true
  | some known => known < total

def put (table : Table Label Weight) (pos : Nat) (total : Weight) (last : Label × Nat) : Table Label Weight :=
  ⟨table.bestScore.set pos (some total), table.bestBack.set pos (some last)⟩

/-- An edge behind a position with a known total is offered to its end. -/
def offer [LinearOrder Weight] [Add Weight] (table : Table Label Weight) (pos : Nat) (here : Weight)
    (edge : Edge Label Weight) : Table Label Weight :=
  if table.improves (pos + edge.length) (here + edge.weight) then
    table.put (pos + edge.length) (here + edge.weight) (edge.label, edge.length)
  else table

/-- The labels of the path to a position, in front of labels that are known. -/
def backtrack (table : Table Label Weight) : Nat → Nat → List Label → List Label
  | 0, _, labels => labels
  | fuel + 1, pos, labels =>
      if pos = 0 then labels
      else
        match table.backAt pos with
        | some (label, length) => backtrack table fuel (pos - length) (label :: labels)
        | none => labels

def Sized (table : Table Label Weight) (size : Nat) : Prop :=
  table.bestScore.length = size + 1 ∧ table.bestBack.length = size + 1

variable {table : Table Label Weight} {size pos : Nat}

theorem scoreAt_put (sized : table.Sized size) (inside : pos ≤ size) (total : Weight) (last : Label × Nat) (other : Nat) :
    (table.put pos total last).scoreAt other = if other = pos then some total else table.scoreAt other := by
  have bound := sized.1
  rw [scoreAt, put, getD_eq_getElem?_getD, getElem?_set]
  by_cases same : other = pos
  · subst same
    rw [if_pos rfl, if_pos (by omega), if_pos rfl]
    rfl
  · rw [if_neg (Ne.symm same), if_neg same, ← getD_eq_getElem?_getD, scoreAt]

theorem backAt_put (sized : table.Sized size) (inside : pos ≤ size) (total : Weight) (last : Label × Nat) (other : Nat) :
    (table.put pos total last).backAt other = if other = pos then some last else table.backAt other := by
  have bound := sized.2
  rw [backAt, put, getD_eq_getElem?_getD, getElem?_set]
  by_cases same : other = pos
  · subst same
    rw [if_pos rfl, if_pos (by omega), if_pos rfl]
    rfl
  · rw [if_neg (Ne.symm same), if_neg same, ← getD_eq_getElem?_getD, backAt]

variable {total : Weight}

theorem lt_of_improves [LinearOrder Weight] {known : Weight} (better : table.improves pos total = true)
    (reached : table.scoreAt pos = some known) : known < total := by
  rw [improves, reached] at better
  exact of_decide_eq_true better

theorem le_of_not_improves [LinearOrder Weight] (worse : table.improves pos total = false) :
    ∃ known, table.scoreAt pos = some known ∧ total ≤ known := by
  rw [improves] at worse
  split at worse
  · cases worse
  · rename_i known reached
    exact ⟨known, reached, not_lt.mp (of_decide_eq_false worse)⟩

theorem put_sized (sized : table.Sized size) (total : Weight) (last : Label × Nat) :
    (table.put pos total last).Sized size := by
  rw [Sized, put, length_set, length_set]
  exact sized

end Table

variable [AddCommMonoid Weight] [LinearOrder Weight]

/-- The table holds the best paths over the edges that were offered so far. -/
structure Best (size : Nat) (offered : Nat → Edge Label Weight → Prop) (table : Table Label Weight) : Prop where
  sized : table.Sized size
  origin : table.scoreAt 0 = some 0
  forward : ∀ pos edge, offered pos edge → 0 < edge.length
  traced : ∀ pos total, table.scoreAt pos = some total → pos ≠ 0 → ∃ before edge known, pos = before + edge.length ∧
    offered before edge ∧ table.scoreAt before = some known ∧ total = known + edge.weight ∧
    table.backAt pos = some (edge.label, edge.length)
  settled : ∀ pos edge known, offered pos edge → table.scoreAt pos = some known →
    ∃ total, table.scoreAt (pos + edge.length) = some total ∧ known + edge.weight ≤ total

variable {size : Nat} {offered : Nat → Edge Label Weight → Prop} {table : Table Label Weight}
  {edges : Nat → Edge Label Weight → Prop} {labels : List Label} {total here : Weight} {edge : Edge Label Weight}

theorem Best.start (size : Nat) : Best size (fun _ _ => False) (Table.start size : Table Label Weight) where
  sized := by
    rw [Table.Sized, Table.start, length_set, length_replicate]
    exact ⟨rfl, length_replicate⟩
  origin := by
    rw [Table.scoreAt, Table.start, getD_eq_getElem?_getD, getElem?_set_self (by simp)]
    rfl
  forward := nofun
  traced := by
    intro pos total known other
    rw [Table.scoreAt, Table.start, getD_eq_getElem?_getD, getElem?_set_ne (Ne.symm other),
      getElem?_replicate] at known
    split at known <;> cases known
  settled := nofun

/-- An edge that leaves a known position joins the offered edges. -/
theorem Best.offer {pos : Nat} (best : Best size offered table) (known : table.scoreAt pos = some here)
    (positive : 0 < edge.length) (inside : pos + edge.length ≤ size)
    (earlier : ∀ before edge', offered before edge' → before ≤ pos) :
    Best size (fun before edge' => offered before edge' ∨ before = pos ∧ edge' = edge) (table.offer pos here edge) := by
  have forward (before : Nat) (edge' : Edge Label Weight) (known : offered before edge' ∨ before = pos ∧ edge' = edge) :
      0 < edge'.length := by
    rcases known with old | ⟨_, rfl⟩
    · exact best.forward before edge' old
    · exact positive
  rw [Table.offer]
  split
  · rename_i better
    have score := Table.scoreAt_put best.sized inside (here + edge.weight) (edge.label, edge.length)
    have back := Table.backAt_put best.sized inside (here + edge.weight) (edge.label, edge.length)
    have before (other : Nat) (early : other ≤ pos) :
        (table.put (pos + edge.length) (here + edge.weight) (edge.label, edge.length)).scoreAt other =
          table.scoreAt other := by
      rw [score, if_neg (by omega)]
    refine ⟨Table.put_sized best.sized _ _, ?_, forward, ?_, ?_⟩
    · rw [before 0 (Nat.zero_le _)]
      exact best.origin
    · intro other total found nonzero
      rw [score] at found
      rw [back]
      split at found
      · rename_i same
        cases found
        exact ⟨pos, edge, here, same, Or.inr ⟨rfl, rfl⟩, by rw [before pos (Nat.le_refl _), known], rfl, if_pos same⟩
      · rename_i different
        obtain ⟨first, edge', total', parts, old, start, sum, last⟩ := best.traced other total found nonzero
        refine ⟨first, edge', total', parts, Or.inl old, ?_, sum, ?_⟩
        · rw [before first (earlier first edge' old), start]
        · rw [if_neg different, last]
    · intro first edge' total step found
      rcases step with old | ⟨rfl, rfl⟩
      · rw [before first (earlier first edge' old)] at found
        obtain ⟨total', reached, less⟩ := best.settled first edge' total old found
        rw [score]
        split
        · rename_i same
          rw [same] at reached
          exact ⟨_, rfl, le_trans less (le_of_lt (Table.lt_of_improves better reached))⟩
        · exact ⟨total', reached, less⟩
      · rw [before first (Nat.le_refl _), known] at found
        cases found
        refine ⟨_, ?_, le_refl _⟩
        rw [score, if_pos rfl]
  · rename_i worse
    refine ⟨best.sized, best.origin, forward, ?_, ?_⟩
    · intro other total found nonzero
      obtain ⟨first, edge', total', parts, old, rest⟩ := best.traced other total found nonzero
      exact ⟨first, edge', total', parts, Or.inl old, rest⟩
    · intro first edge' total step found
      rcases step with old | ⟨rfl, rfl⟩
      · exact best.settled first edge' total old found
      · rw [known] at found
        cases found
        exact Table.le_of_not_improves (Bool.eq_false_iff.mpr worse)

/-- A known position stays known when an edge is offered. -/
theorem Table.offer_known (sized : table.Sized size) {pos : Nat} {here : Weight} {edge : Edge Label Weight}
    (inside : pos + edge.length ≤ size) :
    (table.offer pos here edge).Sized size ∧ (table.offer pos here edge).scoreAt (pos + edge.length) ≠ none ∧
      ∀ other, table.scoreAt other ≠ none → (table.offer pos here edge).scoreAt other ≠ none := by
  rw [offer]
  split
  · have score := Table.scoreAt_put sized inside (here + edge.weight) (edge.label, edge.length)
    refine ⟨put_sized sized _ _, ?_, fun other known => ?_⟩
    · rw [score, if_pos rfl]
      exact Option.some_ne_none _
    · rw [score]
      split
      · exact Option.some_ne_none _
      · exact known
  · rename_i worse
    obtain ⟨total, known, _⟩ := le_of_not_improves (Bool.eq_false_iff.mpr worse)
    refine ⟨sized, ?_, fun _ known => known⟩
    rw [known]
    exact Option.some_ne_none _

theorem Table.scoreAt_offer (sized : table.Sized size) {pos other : Nat} (inside : pos + edge.length ≤ size)
    (before : other < pos + edge.length) : (table.offer pos here edge).scoreAt other = table.scoreAt other := by
  rw [offer]
  split
  · rw [scoreAt_put sized inside, if_neg (Nat.ne_of_lt before)]
  · rfl

/-- The labels that the table remembers are the labels of a path with the total of the table. -/
theorem Best.backtrack (best : Best size offered table) {fuel pos : Nat} (enough : pos ≤ fuel)
    (known : table.scoreAt pos = some total) (later : List Label) :
    ∃ labels, table.backtrack fuel pos later = labels ++ later ∧ Path offered pos labels total := by
  induction fuel generalizing pos total later with
  | zero =>
      obtain rfl := Nat.le_zero.mp enough
      rw [best.origin] at known
      cases known
      exact ⟨[], rfl, .nil⟩
  | succ fuel ih =>
      rw [Table.backtrack]
      split
      · rename_i same
        subst same
        rw [best.origin] at known
        cases known
        exact ⟨[], rfl, .nil⟩
      · rename_i nonzero
        obtain ⟨before, edge, total', rfl, step, start, rfl, last⟩ := best.traced pos total known nonzero
        have positive := best.forward before edge step
        rw [last]
        dsimp only
        rw [Nat.add_sub_cancel]
        obtain ⟨labels, same, path⟩ := ih (by omega) start (edge.label :: later)
        refine ⟨labels ++ [edge.label], ?_, path.snoc edge step⟩
        rw [same, append_assoc, singleton_append]

/-- No path over edges that were offered has a greater total. -/
theorem Best.greatest [IsOrderedAddMonoid Weight] (best : Best size offered table) {pos : Nat}
    (path : Path edges pos labels total)
    (subset : ∀ before edge, before + edge.length ≤ pos → edges before edge → offered before edge) :
    ∃ known, table.scoreAt pos = some known ∧ total ≤ known := by
  induction path with
  | nil => exact ⟨0, best.origin, le_refl _⟩
  | @snoc before labels total edge path step ih =>
      obtain ⟨known, start, less⟩ := ih fun first edge' inside => subset first edge' (by omega)
      obtain ⟨known', reached, less'⟩ := best.settled before edge known (subset before edge (Nat.le_refl _) step) start
      exact ⟨known', reached, le_trans (add_le_add_left less _) less'⟩

end Pictor.BestPath
