import Mathlib

namespace Pictor
open List

variable {α δ : Type} [LinearOrder δ] {distance : α → δ} {members fewer : α → Prop} {a b : α}

/-- No member has a smaller distance. -/
structure Nearest (distance : α → δ) (members : α → Prop) (a : α) : Prop where
  member : members a
  least : ∀ b, members b → distance a ≤ distance b

namespace Nearest

/-- A nearest member stays nearest if others leave. -/
theorem shrink (nearest : Nearest distance members a) (less : ∀ b, fewer b → members b) (kept : fewer a) :
    Nearest distance fewer a where
  member := kept
  least b member := nearest.least b (less b member)

/-- If the nearest member changes, then the old one has left or the new one has come. -/
theorem moved (before : Nearest distance members a) (after : Nearest distance fewer b)
    (apart : distance a = distance b → a = b) (changed : a ≠ b) : ¬fewer a ∨ ¬members b := by
  by_contra both
  rw [not_or, not_not, not_not] at both
  exact changed (apart (le_antisymm (before.least b both.2) (after.least a both.1)))

end Nearest

variable {items : List α} {position : α → UInt64}

/-- The first match in a list that is sorted by distance is nearest among the matches. -/
theorem nearest_find (sorted : items.Pairwise fun a b => distance a ≤ distance b) {p : α → Bool}
    (found : items.find? p = some a) : Nearest distance (fun b => b ∈ items ∧ p b = true) a := by
  induction sorted with
  | nil => exact (nomatch found)
  | @cons first rest least sorted ih =>
      rw [find?_cons] at found
      split at found
      case h_1 first_matches =>
        cases found
        refine ⟨⟨mem_cons_self, first_matches⟩, fun b member => ?_⟩
        rcases mem_cons.mp member.1 with rfl | behind
        · exact le_refl _
        · exact least b behind
      case h_2 fails =>
        obtain ⟨⟨inside, matches_a⟩, nearest⟩ := ih found
        refine ⟨⟨mem_cons_of_mem _ inside, matches_a⟩, fun b member => ?_⟩
        rcases mem_cons.mp member.1 with rfl | behind
        · rw [fails] at member
          exact absurd member.2 Bool.false_ne_true
        · exact nearest b ⟨behind, member.2⟩

/-- The distance from a start to a position, clockwise around a ring of machine words. -/
def clockwise (start position : UInt64) : Nat := (position - start).toNat

theorem clockwise_mono {start a b : UInt64} (order : start ≤ a ∧ (a ≤ b ∨ b < start) ∨ a ≤ b ∧ b < start) :
    clockwise start a ≤ clockwise start b := by
  rw [clockwise, clockwise, UInt64.toNat_sub, UInt64.toNat_sub]
  simp only [UInt64.le_iff_toNat_le, UInt64.lt_iff_toNat_lt] at order
  have small := a.toNat_lt
  have small' := b.toNat_lt
  have small'' := start.toNat_lt
  omega

theorem clockwise_inj {start a b : UInt64} (same : clockwise start a = clockwise start b) : a = b :=
  (UInt64.sub_left_inj start).mp (UInt64.toNat_inj.mp same)

/-- Behind the first position that is not before a start, no position is. -/
theorem not_before_dropWhile (start : UInt64) (sorted : items.Pairwise fun a b => position a ≤ position b) :
    ∀ a ∈ items.dropWhile (fun a => position a < start), start ≤ position a := by
  induction sorted with
  | nil => exact fun _ impossible => (nomatch impossible)
  | @cons first rest least sorted ih =>
      rw [dropWhile_cons]
      split
      case isTrue => exact ih
      case isFalse late =>
        have late := UInt64.not_lt.mp fun early => late (decide_eq_true early)
        intro a member
        rcases mem_cons.mp member with rfl | behind
        · exact late
        · exact UInt64.le_trans late (least a behind)

/-- Positions in order are in clockwise order from a start once those before it come last. -/
theorem pairwise_clockwise (start : UInt64) (sorted : items.Pairwise fun a b => position a ≤ position b) :
    (items.dropWhile (fun a => position a < start) ++ items.takeWhile fun a => position a < start).Pairwise
      fun a b => clockwise start (position a) ≤ clockwise start (position b) := by
  have behind : ∀ a ∈ items.takeWhile (fun a => position a < start), position a < start := by
    intro a member
    have before := @mem_takeWhile_imp _ (fun a => decide (position a < start)) _ _ member
    exact of_decide_eq_true before
  have ahead := not_before_dropWhile start sorted
  rw [pairwise_append]
  refine ⟨?_, ?_, ?_⟩
  · apply (sorted.sublist (dropWhile_sublist _)).imp_of_mem
    intro a b here _ order
    exact clockwise_mono (.inl ⟨ahead a here, .inl order⟩)
  · apply (sorted.sublist (takeWhile_sublist _)).imp_of_mem
    intro a b _ here order
    exact clockwise_mono (.inr ⟨order, behind b here⟩)
  · intro a here b there
    exact clockwise_mono (.inl ⟨ahead a here, .inr (behind b there)⟩)

end Pictor
