import Mathlib.Data.List.Basic

namespace Pictor.Framing
open List

variable {Symbol : Type} {middle stop : Symbol}

/-- The first separator stands between the two texts of a pair, the second one behind them. -/
def frame (middle stop : Symbol) (pairs : List (List Symbol × List Symbol)) : List Symbol :=
  pairs.flatMap fun pair => pair.1 ++ middle :: (pair.2 ++ [stop])

@[simp] theorem frame_nil : frame middle stop [] = [] := rfl

@[simp] theorem frame_cons (pair : List Symbol × List Symbol) (pairs : List (List Symbol × List Symbol)) :
    frame middle stop (pair :: pairs) = pair.1 ++ middle :: (pair.2 ++ stop :: frame middle stop pairs) := by
  simp [frame]

/-- The place of the first separator is unique. -/
theorem split_first {first first' rest rest' : List Symbol} (absent : middle ∉ first) (absent' : middle ∉ first')
    (same : first ++ middle :: rest = first' ++ middle :: rest') : first = first' ∧ rest = rest' := by
  induction first generalizing first' with
  | nil =>
      cases first' with
      | nil => exact ⟨rfl, (List.cons.inj same).2⟩
      | cons symbol first' =>
          rw [(List.cons.inj same).1] at absent'
          exact absurd mem_cons_self absent'
  | cons symbol first ih =>
      cases first' with
      | nil =>
          rw [(List.cons.inj same).1] at absent
          exact absurd mem_cons_self absent
      | cons symbol' first' =>
          obtain ⟨head, tail⟩ := List.cons.inj same
          have behind := ih (not_mem_of_not_mem_cons absent) (not_mem_of_not_mem_cons absent') tail
          exact ⟨by rw [head, behind.1], behind.2⟩

/-- No text contains the separator that ends it. -/
def Clean (middle stop : Symbol) (pairs : List (List Symbol × List Symbol)) : Prop :=
  ∀ pair ∈ pairs, middle ∉ pair.1 ∧ stop ∉ pair.2

/-- Clean pairs are read back from their frame. -/
theorem frame_injOn {pairs pairs' : List (List Symbol × List Symbol)} (clean : Clean middle stop pairs)
    (clean' : Clean middle stop pairs') (same : frame middle stop pairs = frame middle stop pairs') :
    pairs = pairs' := by
  induction pairs generalizing pairs' with
  | nil =>
      cases pairs' with
      | nil => rfl
      | cons pair' pairs' => simp at same
  | cons pair pairs ih =>
      cases pairs' with
      | nil => simp at same
      | cons pair' pairs' =>
          rw [Clean, forall_mem_cons] at clean clean'
          rw [frame_cons, frame_cons] at same
          obtain ⟨first, same⟩ := split_first clean.1.1 clean'.1.1 same
          obtain ⟨second, same⟩ := split_first clean.1.2 clean'.1.2 same
          rw [ih clean.2 clean'.2 same, Prod.ext first second]

/-- The frame of some pairs ends with a separator. -/
theorem frame_ends {pairs : List (List Symbol × List Symbol)} (some : pairs ≠ []) :
    ∃ inner, frame middle stop pairs = inner ++ [stop] := by
  obtain ⟨before, pair, rfl⟩ := (eq_nil_or_concat pairs).resolve_left some
  exact ⟨frame middle stop before ++ (pair.1 ++ middle :: pair.2), by simp [frame]⟩

theorem length_le_count [DecidableEq Symbol] (pairs : List (List Symbol × List Symbol)) :
    pairs.length ≤ (frame middle stop pairs).count middle := by
  induction pairs with
  | nil => exact Nat.le_refl _
  | cons pair pairs ih =>
      rw [frame_cons, count_append, count_cons_self, count_append, length_cons]
      have behind : (frame middle stop pairs).count middle ≤ (stop :: frame middle stop pairs).count middle :=
        count_le_count_cons
      omega

/-- A single pair without the first separator is read back from its frame. -/
theorem frame_single [DecidableEq Symbol] (differ : middle ≠ stop) {first second : List Symbol}
    (absent : middle ∉ first) (absent' : middle ∉ second) {pairs : List (List Symbol × List Symbol)}
    (same : frame middle stop pairs = frame middle stop [(first, second)]) : pairs = [(first, second)] := by
  have once : (frame middle stop pairs).count middle = 1 := by
    rw [same, frame_cons, frame_nil, count_append, count_cons_self, count_append,
      List.count_eq_zero.mpr absent, List.count_eq_zero.mpr absent', count_singleton]
    simp [differ.symm]
  have few : pairs.length ≤ 1 := once ▸ length_le_count pairs
  match pairs, few with
  | [], _ => simp at same
  | [(first', second')], _ =>
      have clear : middle ∉ first' := by
        intro present
        have more := count_pos_iff.mpr present
        simp only [frame_cons, frame_nil, count_append, count_cons_self] at once
        omega
      rw [frame_cons, frame_cons] at same
      obtain ⟨firsts, seconds⟩ := split_first clear absent same
      have seconds : second' = second := (append_left_inj [stop]).mp seconds
      rw [firsts, seconds]

/-- Only the empty list and a single pair without the first separator have a frame of their own. -/
theorem frame_unique_iff [DecidableEq Symbol] (differ : middle ≠ stop) (pairs : List (List Symbol × List Symbol)) :
    (∀ others, others ≠ pairs → frame middle stop others ≠ frame middle stop pairs) ↔
      pairs = [] ∨ ∃ first second, pairs = [(first, second)] ∧ middle ∉ first ∧ middle ∉ second := by
  constructor
  · intro unique
    match pairs with
    | [] => exact Or.inl rfl
    | [(first, second)] =>
        refine Or.inr ⟨first, second, rfl, fun present => ?_, fun present => ?_⟩
        · obtain ⟨front, back, rfl⟩ := append_of_mem present
          refine unique [(front, back ++ middle :: second)] (fun same => ?_) (by simp)
          have lengths := congrArg List.length (Prod.mk.inj (List.cons.inj same).1).1
          simp at lengths
        · obtain ⟨front, back, rfl⟩ := append_of_mem present
          refine unique [(first ++ middle :: front, back)] (fun same => ?_) (by simp)
          have lengths := congrArg List.length (Prod.mk.inj (List.cons.inj same).1).1
          simp at lengths
    | (first, second) :: next :: pairs =>
        obtain ⟨inner, ends⟩ := @frame_ends _ middle stop _ (cons_ne_nil next pairs)
        refine absurd ?_ (unique [(first, second ++ stop :: inner)] (fun same => ?_))
        · rw [frame_cons (first, second), ends]
          simp
        · cases (List.cons.inj same).2
  · intro either others differs same
    rcases either with rfl | ⟨first, second, rfl, absent, absent'⟩
    · cases others with
      | nil => exact differs rfl
      | cons pair others => simp at same
    · exact differs (frame_single differ absent absent' same)

end Pictor.Framing
