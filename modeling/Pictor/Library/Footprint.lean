import Mathlib.Data.Set.Basic
import Pictor.Library.Outcome

namespace Pictor.Footprint

variable {State Cell Value Failure : Type}

/-- The cells of a region have their target values after a program, and all other cells are unchanged. -/
structure Written (valid : State → Prop) (read : State → Cell → Value) (region : Set Cell) (target : Cell → Value)
    (before after : State) : Prop where
  valid : valid after
  inside : ∀ cell ∈ region, read after cell = target cell
  outside : ∀ cell, cell ∉ region → read after cell = read before cell

/-- A program succeeds on every valid state and writes a region. -/
def Writes (valid : State → Prop) (read : State → Cell → Value) (region : Set Cell) (target : Cell → Value)
    (work : State → Except Failure State) : Prop :=
  ∀ state, valid state → ∃ after, work state = .ok after ∧ Written valid read region target state after

variable {valid : State → Prop} {read : State → Cell → Value} {region second : Set Cell} {target : Cell → Value}

theorem Written.trans {before middle after : State} (first : Written valid read region target before middle)
    (later : Written valid read second target middle after) :
    Written valid read (region ∪ second) target before after := by
  constructor
  · exact later.valid
  · intro cell member
    by_cases overwritten : cell ∈ second
    · exact later.inside cell overwritten
    · rw [later.outside cell overwritten]
      exact first.inside cell (member.resolve_right overwritten)
  · intro cell apart
    rw [Set.mem_union, not_or] at apart
    rw [later.outside cell apart.2, first.outside cell apart.1]

variable {work : State → Except Failure State}

theorem Writes.congr (writes : Writes valid read region target work) (same : region = second) :
    Writes valid read second target work := same ▸ writes

/-- The values matter in the region only. -/
theorem Writes.retarget {other : Cell → Value} (writes : Writes valid read region target work)
    (agree : ∀ cell ∈ region, target cell = other cell) : Writes valid read region other work := by
  intro state fine
  obtain ⟨after, ran, written⟩ := writes state fine
  refine ⟨after, ran, written.valid, fun cell member => ?_, written.outside⟩
  rw [written.inside cell member, agree cell member]

theorem Writes.bind {later : State → Except Failure State} (first : Writes valid read region target work)
    (next : Writes valid read second target later) :
    Writes valid read (region ∪ second) target fun state => work state >>= later := by
  intro state fine
  obtain ⟨middle, ran, written⟩ := first state fine
  obtain ⟨after, ran', written'⟩ := next middle written.valid
  refine ⟨after, ?_, written.trans written'⟩
  change (work state >>= later) = _
  rw [ran]
  exact ran'

/-- A loop writes the regions of its steps. -/
theorem Writes.foldlM {Item : Type} {items : List Item} {regions : Item → Set Cell}
    {step : State → Item → Except Failure State}
    (each : ∀ item ∈ items, Writes valid read (regions item) target fun state => step state item) :
    Writes valid read {cell | ∃ item ∈ items, cell ∈ regions item} target fun state => items.foldlM step state := by
  induction items with
  | nil =>
      intro state fine
      refine ⟨state, rfl, fine, fun cell ⟨item, member, _⟩ => ?_, fun _ _ => rfl⟩
      cases member
  | cons item items ih =>
      have first := each item List.mem_cons_self
      have rest := ih fun other member => each other (List.mem_cons_of_mem _ member)
      have both := first.bind rest
      simp only [List.foldlM_cons]
      refine both.congr ?_
      ext cell
      simp only [Set.mem_union, Set.mem_ofPred_eq, List.mem_cons, exists_eq_or_imp]

end Pictor.Footprint
