import Mathlib.Data.Finset.Card
import Mathlib.Data.Finset.Union

namespace Pictor.Worklist
open List

variable {α : Type} [DecidableEq α]

/-- Each new candidate enters the seen set and the back of the queue. -/
def pushAll (seen : Finset α) (queue : List α) : List α → Finset α × List α
  | [] => (seen, queue)
  | a :: rest =>
      if a ∈ seen then pushAll seen queue rest
      else pushAll (insert a seen) (queue ++ [a]) rest

/-- The loop pops the front of the queue until the queue is empty. It counts its pops. -/
def close (next : Nat → Finset α → α → List α) :
    Nat → Nat → Finset α → List α → Finset α × Nat
  | 0, moment, seen, _ => (seen, moment)
  | _ + 1, moment, seen, [] => (seen, moment)
  | fuel + 1, moment, seen, a :: queue =>
      let pushed := pushAll seen queue (next moment seen a)
      close next fuel (moment + 1) pushed.1 pushed.2

/-- The seen set grows by the candidates. -/
theorem pushAll_seen (seen : Finset α) (queue candidates : List α) :
    (pushAll seen queue candidates).1 = seen ∪ candidates.toFinset := by
  induction candidates generalizing seen queue with
  | nil => simp [pushAll]
  | cons a rest ih =>
      rw [pushAll]
      split
      · rename_i old
        rw [ih, toFinset_cons, Finset.union_insert, Finset.insert_eq_of_mem]
        exact Finset.mem_union_left _ old
      · rw [ih, toFinset_cons, Finset.union_insert, Finset.insert_union]

/-- The queue grows by the candidates that the seen set did not hold. -/
theorem mem_pushAll_queue (seen : Finset α) (queue candidates : List α) (a : α) :
    a ∈ (pushAll seen queue candidates).2 ↔ a ∈ queue ∨ (a ∈ candidates ∧ a ∉ seen) := by
  induction candidates generalizing seen queue with
  | nil => simp [pushAll]
  | cons b rest ih =>
      rw [pushAll]
      split
      · rename_i old
        rw [ih]
        constructor
        · rintro (inside | ⟨inside, fresh⟩)
          · exact Or.inl inside
          · exact Or.inr ⟨mem_cons_of_mem _ inside, fresh⟩
        · rintro (inside | ⟨inside, fresh⟩)
          · exact Or.inl inside
          · rcases mem_cons.mp inside with rfl | later
            · exact absurd old fresh
            · exact Or.inr ⟨later, fresh⟩
      · rename_i new
        rw [ih]
        by_cases same : a = b
        · subst same
          simp [new]
        · simp [same]

/-- Each candidate that enters the seen set enters the queue once. -/
theorem pushAll_count (seen : Finset α) (queue candidates : List α) :
    (pushAll seen queue candidates).2.length + seen.card = queue.length + (pushAll seen queue candidates).1.card := by
  induction candidates generalizing seen queue with
  | nil => simp [pushAll]
  | cons a rest ih =>
      rw [pushAll]
      split
      · exact ih seen queue
      · rename_i new
        have step := ih (insert a seen) (queue ++ [a])
        rw [Finset.card_insert_of_notMem new, length_append, length_singleton] at step
        omega

/-- Every queued member stays inside the seen set. -/
theorem pushAll_inside (seen : Finset α) (queue candidates : List α) (inside : ∀ a ∈ queue, a ∈ seen) :
    ∀ a ∈ (pushAll seen queue candidates).2, a ∈ (pushAll seen queue candidates).1 := by
  intro a queued
  rw [pushAll_seen, Finset.mem_union, mem_toFinset]
  rcases (mem_pushAll_queue _ _ _ _).mp queued with old | new
  · exact Or.inl (inside a old)
  · exact Or.inr new.1

variable (next : Nat → Finset α → α → List α)
include next

/-- The result keeps every member that the loop starts with. -/
theorem subset_close (fuel moment : Nat) (seen : Finset α) (queue : List α) :
    seen ⊆ (close next fuel moment seen queue).1 := by
  induction fuel generalizing moment seen queue with
  | zero => exact Finset.Subset.refl seen
  | succ fuel ih =>
      cases queue with
      | nil => exact Finset.Subset.refl seen
      | cons a queue =>
          have grow : seen ⊆ (pushAll seen queue (next moment seen a)).1 := by
            rw [pushAll_seen]
            exact Finset.subset_union_left
          exact grow.trans (ih (moment + 1) _ _)

/-- A property of the start members that each step hands to its candidates holds of the result. -/
theorem close_induction (good : α → Prop)
    (step : ∀ moment seen a, (∀ b ∈ seen, good b) → a ∈ seen → ∀ c ∈ next moment seen a, good c) (fuel moment : Nat)
    (seen : Finset α) (queue : List α) (inside : ∀ a ∈ queue, a ∈ seen) (start : ∀ a ∈ seen, good a) :
    ∀ a ∈ (close next fuel moment seen queue).1, good a := by
  induction fuel generalizing moment seen queue with
  | zero => exact start
  | succ fuel ih =>
      cases queue with
      | nil => exact start
      | cons a queue =>
          have popped : a ∈ seen := inside a mem_cons_self
          apply ih
          · exact pushAll_inside _ _ _ fun b queued => inside b (mem_cons_of_mem _ queued)
          · intro b known
            rw [pushAll_seen, Finset.mem_union, mem_toFinset] at known
            rcases known with old | new
            · exact start b old
            · exact step moment seen a start popped b new

/-- Every member of the result outside the start was popped, and its candidates are in the result.
The fuel covers the queue and every member of the space that is not yet seen. -/
theorem close_processed (space : Finset α)
    (bounded : ∀ moment seen a, seen ⊆ space → a ∈ seen → ∀ c ∈ next moment seen a, c ∈ space) (fuel moment : Nat)
    (seen : Finset α) (queue : List α) (inside : ∀ a ∈ queue, a ∈ seen) (within : seen ⊆ space)
    (enough : queue.length + space.card ≤ fuel + seen.card) :
    ∀ a ∈ (close next fuel moment seen queue).1, a ∈ queue ∨ a ∉ seen →
      ∃ when' current, seen ⊆ current ∧ a ∈ current ∧
        ∀ c ∈ next when' current a, c ∈ (close next fuel moment seen queue).1 := by
  induction fuel generalizing moment seen queue with
  | zero =>
      intro a known pending
      have small : seen.card ≤ space.card := Finset.card_le_card within
      have drained : queue = [] := eq_nil_of_length_eq_zero (by omega)
      subst drained
      exact absurd known (pending.resolve_left not_mem_nil)
  | succ fuel ih =>
      cases queue with
      | nil =>
          intro a known pending
          exact absurd known (pending.resolve_left not_mem_nil)
      | cons a queue =>
          have popped : a ∈ seen := inside a mem_cons_self
          let pushed := pushAll seen queue (next moment seen a)
          have pushedSeen : pushed.1 = seen ∪ (next moment seen a).toFinset := pushAll_seen _ _ _
          have grow : seen ⊆ pushed.1 := by
            rw [pushedSeen]
            exact Finset.subset_union_left
          have count : pushed.2.length + seen.card = queue.length + pushed.1.card :=
            pushAll_count _ _ _
          have inside' : ∀ b ∈ pushed.2, b ∈ pushed.1 :=
            pushAll_inside _ _ _ fun b queued => inside b (mem_cons_of_mem _ queued)
          have within' : pushed.1 ⊆ space := by
            intro b known
            rw [pushedSeen, Finset.mem_union, mem_toFinset] at known
            rcases known with old | new
            · exact within old
            · exact bounded moment seen a within popped b new
          have rest := ih (moment + 1) pushed.1 pushed.2 inside' within' (by
            simp only [length_cons] at enough
            omega)
          intro b known pending
          by_cases front : b = a
          · -- The popped member pushed its own candidates.
            subst front
            refine ⟨moment, seen, Finset.Subset.refl seen, popped, fun c candidate => ?_⟩
            apply subset_close next fuel (moment + 1) pushed.1 pushed.2
            rw [pushedSeen, Finset.mem_union, mem_toFinset]
            exact Or.inr candidate
          · have later : b ∈ pushed.2 ∨ b ∉ pushed.1 := by
              rcases pending with queued | fresh
              · rcases mem_cons.mp queued with same | queued
                · exact absurd same front
                · exact Or.inl ((mem_pushAll_queue _ _ _ _).mpr (Or.inl queued))
              · by_cases candidate : b ∈ next moment seen a
                · exact Or.inl ((mem_pushAll_queue _ _ _ _).mpr (Or.inr ⟨candidate, fresh⟩))
                · refine Or.inr fun known => ?_
                  rw [pushedSeen, Finset.mem_union, mem_toFinset] at known
                  rcases known with old | new
                  · exact fresh old
                  · exact candidate new
            obtain ⟨when', current, wide, member, closed⟩ := rest b known later
            exact ⟨when', current, grow.trans wide, member, closed⟩

omit next

/-- Two loops that agree on the candidates of every good member give the same result. -/
theorem close_congr (next next' : Nat → Finset α → α → List α) (good : α → Prop)
    (same : ∀ moment seen a, (∀ b ∈ seen, good b) → a ∈ seen → next moment seen a = next' moment seen a)
    (step : ∀ moment seen a, (∀ b ∈ seen, good b) → a ∈ seen → ∀ c ∈ next moment seen a, good c)
    (fuel moment : Nat) (seen : Finset α) (queue : List α) (inside : ∀ a ∈ queue, a ∈ seen)
    (start : ∀ a ∈ seen, good a) : close next fuel moment seen queue = close next' fuel moment seen queue := by
  induction fuel generalizing moment seen queue with
  | zero => rfl
  | succ fuel ih =>
      cases queue with
      | nil => rfl
      | cons a queue =>
          have popped : a ∈ seen := inside a mem_cons_self
          simp only [close]
          rw [← same moment seen a start popped]
          apply ih
          · exact pushAll_inside _ _ _ fun b queued => inside b (mem_cons_of_mem _ queued)
          · intro b known
            rw [pushAll_seen, Finset.mem_union, mem_toFinset] at known
            rcases known with old | new
            · exact start b old
            · exact step moment seen a start popped b new

end Pictor.Worklist
