import Mathlib.Tactic.Linarith
import Mathlib.Tactic.Ring
import Mathlib.Tactic.Positivity

namespace Pictor
open List

variable {K : Type} [LinearOrder K]

/-- The number of instants from a start to a stop. -/
def within (start stop : K) (instants : List K) : Nat := instants.countP fun instant => start ≤ instant ∧ instant ≤ stop

section Windows

variable {clock later : K} {instants : List K}

/-- A window that reaches beyond the clock holds the same instants as one that ends there. -/
theorem within_beyond (past : ∀ instant ∈ instants, instant ≤ clock) (beyond : clock ≤ later) (start : K) :
    within start later instants = within start clock instants := by
  apply countP_congr
  intro instant member
  simp [past instant member, (past instant member).trans beyond]

theorem within_empty (past : ∀ instant ∈ instants, instant ≤ clock) {start : K} (behind : clock < start) (stop : K) :
    within start stop instants = 0 := by
  rw [within, countP_eq_zero]
  intro instant member
  simp [not_le.mpr (lt_of_le_of_lt (past instant member) behind)]

end Windows

variable [Field K] [IsStrictOrderedRing K]

/-- The instants of the requests that a meter let through obey its capacity and its rate, and its level is spare. -/
structure Metered (capacity rate : K) (instants : List K) (level clock : K) : Prop where
  past : ∀ instant ∈ instants, instant ≤ clock
  level_le : level ≤ capacity
  window : ∀ start stop, start ≤ stop → (within start stop instants : K) ≤ capacity + rate * (stop - start)
  spare : ∀ start, start ≤ clock → (within start clock instants : K) + level ≤ capacity + rate * (clock - start)

namespace Metered

variable {capacity rate level clock later lower : K} {instants : List K}

theorem fresh (nonneg : 0 ≤ rate) (filled : 0 ≤ capacity) (clock : K) : Metered capacity rate [] capacity clock where
  past _ impossible := (nomatch impossible)
  level_le := le_refl _
  window start stop before := by
    have gained := mul_nonneg nonneg (sub_nonneg.mpr before)
    rw [within, countP_nil, Nat.cast_zero]
    linarith
  spare start before := by
    have gained := mul_nonneg nonneg (sub_nonneg.mpr before)
    rw [within, countP_nil, Nat.cast_zero]
    linarith

/-- The level of a meter may rise by its rate while the clock runs, up to the capacity. -/
theorem wait (metered : Metered capacity rate instants level clock) (nonneg : 0 ≤ rate) (beyond : clock ≤ later)
    (gained : lower ≤ level + rate * (later - clock)) (bounded : lower ≤ capacity) :
    Metered capacity rate instants lower later where
  past instant member := (metered.past instant member).trans beyond
  level_le := bounded
  window := metered.window
  spare start before := by
    rw [within_beyond metered.past beyond]
    rcases le_or_gt start clock with early | late
    · have spare := metered.spare start early
      have split : rate * (later - start) = rate * (later - clock) + rate * (clock - start) := by ring
      linarith
    · have filled := mul_nonneg nonneg (sub_nonneg.mpr before)
      rw [within_empty metered.past late, Nat.cast_zero]
      linarith

/-- A request takes one unit from a meter that has it. -/
theorem take (metered : Metered capacity rate instants level clock) (nonneg : 0 ≤ rate) (enough : 1 ≤ level) :
    Metered capacity rate (instants ++ [clock]) (level - 1) clock where
  past instant member := by
    rcases mem_append.mp member with old | new
    · exact metered.past instant old
    · exact (mem_singleton.mp new).le
  level_le := by
    have bounded := metered.level_le
    linarith
  window start stop before := by
    rw [within, countP_append, countP_singleton, Nat.cast_add]
    by_cases inside : start ≤ clock ∧ clock ≤ stop
    · have spare := metered.spare start inside.1
      have ends := within_beyond metered.past inside.2 start
      have longer : rate * (clock - start) ≤ rate * (stop - start) :=
        mul_le_mul_of_nonneg_left (sub_le_sub_right inside.2 start) nonneg
      rw [← within, ends]
      simp only [inside, and_self, decide_true, if_true, Nat.cast_one]
      linarith
    · have window := metered.window start stop before
      rw [within] at window
      simp only [inside, decide_false, Bool.false_eq_true, if_false, Nat.cast_zero, add_zero]
      exact window
  spare start before := by
    have spare := metered.spare start before
    rw [within] at spare ⊢
    rw [countP_append, countP_singleton, Nat.cast_add]
    simp only [before, le_refl, and_self, decide_true, if_true, Nat.cast_one]
    linarith

end Metered

end Pictor
