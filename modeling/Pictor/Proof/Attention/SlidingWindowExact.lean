import Pictor.Construction.Attention.SlidingWindow

namespace Pictor.SlidingWindow
open List

variable {config : SlidingWindowConfig} {pos seqLen key : Nat} {Score Entry : Type}

/-- The number of sink positions of a range. -/
def sinkCount (pos seqLen : Nat) (config : SlidingWindowConfig) : Nat :=
  min config.sinkTokens (min seqLen (pos + 1))

/-- A window that covers the sequence lists all of its positions. -/
theorem attentionRange_full (open_ : config.windowSize ≠ 0) (covered : min seqLen (pos + 1) ≤ config.windowSize) :
    (attentionRange pos seqLen config).1 = List.range (min seqLen (pos + 1)) := by
  rw [attentionRange]
  by_cases empty : seqLen = 0
  · rw [if_pos (.inr empty), empty, Nat.zero_min]
    rfl
  · rw [if_neg (not_or.mpr ⟨open_, empty⟩)]
    simp only [if_pos covered]

/-- A window that has moved lists the sinks and the recent positions. -/
theorem attentionRange_moved (open_ : config.windowSize ≠ 0) (short : config.windowSize < min seqLen (pos + 1)) :
    (attentionRange pos seqLen config).1 = List.range (sinkCount pos seqLen config) ++
        List.range' (max (pos + 1 - (config.windowSize - sinkCount pos seqLen config)) (sinkCount pos seqLen config))
          (pos + 1 - max (pos + 1 - (config.windowSize - sinkCount pos seqLen config))
            (sinkCount pos seqLen config)) := by
  have moved : config.windowSize - sinkCount pos seqLen config < pos + 1 := by omega
  rw [attentionRange, if_neg (by omega)]
  simp only [if_neg (Nat.not_le.mpr short)]
  rw [if_pos (show config.windowSize - min config.sinkTokens (min seqLen (pos + 1)) < pos + 1 from moved)]
  rfl

theorem attentionRange_closed (closed : config.windowSize = 0) : attentionRange pos seqLen config = ([], 0) :=
  if_pos (.inl closed)

/-- The positions of a range. -/
theorem mem_attentionRange (open_ : config.windowSize ≠ 0) : key ∈ (attentionRange pos seqLen config).1 ↔
      if min seqLen (pos + 1) ≤ config.windowSize then key < min seqLen (pos + 1)
      else key < sinkCount pos seqLen config ∨
        key ≤ pos ∧ pos - key < config.windowSize - sinkCount pos seqLen config := by
  by_cases covered : min seqLen (pos + 1) ≤ config.windowSize
  · rw [if_pos covered, attentionRange_full open_ covered, mem_range]
  · rw [if_neg covered, attentionRange_moved open_ (Nat.lt_of_not_le covered), mem_append, mem_range,
      mem_range'_1]
    omega

theorem isInWindow_iff (open_ : config.windowSize ≠ 0) {query : Nat} : isInWindow key query config = true ↔
      key < config.sinkTokens ∨ key ≤ query ∧ query - key < config.windowSize - config.sinkTokens := by
  rw [isInWindow, if_neg open_]
  split
  case isTrue sink => exact ⟨fun _ => .inl sink, fun _ => rfl⟩
  case isFalse recent =>
    split
    case isTrue before =>
      rw [decide_eq_true_eq]
      omega
    case isFalse after =>
      refine ⟨fun wrong => absurd wrong Bool.false_ne_true, ?_⟩
      omega

/-- The range up to the query and the test name the same key positions. -/
theorem mem_attentionRange_iff_isInWindow (causal : key ≤ pos) :
    key ∈ (attentionRange pos (pos + 1) config).1 ↔ isInWindow key pos config = true := by
  by_cases closed : config.windowSize = 0
  · rw [attentionRange_closed closed, isInWindow, if_pos closed]
    exact ⟨nofun, nofun⟩
  · rw [mem_attentionRange closed, isInWindow_iff closed, sinkCount]
    split <;> omega

/-- The range up to the query has no position behind the query. -/
theorem le_of_mem_attentionRange (member : key ∈ (attentionRange pos seqLen config).1) : key ≤ pos := by
  by_cases closed : config.windowSize = 0
  · rw [attentionRange_closed closed] at member
    cases member
  · rw [mem_attentionRange closed, sinkCount] at member
    split at member <;> omega

/-- The range of a sequence that ends before or behind the query lists the positions of the window. -/
theorem mem_attentionRange_cached (open_ : config.windowSize ≠ 0) (inside : key < min seqLen (pos + 1))
    (reached : pos < seqLen ∨ config.windowSize < seqLen) :
    key ∈ (attentionRange pos seqLen config).1 ↔ isInWindow key pos config = true := by
  rw [mem_attentionRange open_, isInWindow_iff open_, sinkCount]
  split <;> omega

theorem attentionRange_sorted : (attentionRange pos seqLen config).1.Pairwise (· < ·) := by
  by_cases closed : config.windowSize = 0
  · rw [attentionRange_closed closed]
    exact .nil
  by_cases covered : min seqLen (pos + 1) ≤ config.windowSize
  · rw [attentionRange_full closed covered]
    exact pairwise_lt_range
  · rw [attentionRange_moved closed (Nat.lt_of_not_le covered)]
    refine pairwise_append.mpr ⟨pairwise_lt_range, pairwise_lt_range', fun sink early recent late => ?_⟩
    have below := mem_range.mp early
    have above := (mem_range'_1.mp late).1
    omega

theorem attentionRange_count : (attentionRange pos seqLen config).2 = (attentionRange pos seqLen config).1.length := by
  rw [attentionRange]
  split
  case isTrue => rfl
  case isFalse => dsimp only; split <;> rfl

/-- The sinks are always listed, so a range is longer than the window only by sinks. -/
theorem length_attentionRange_le :
    (attentionRange pos seqLen config).1.length ≤ max config.windowSize (sinkCount pos seqLen config) := by
  by_cases closed : config.windowSize = 0
  · rw [attentionRange_closed closed]
    exact Nat.zero_le _
  by_cases covered : min seqLen (pos + 1) ≤ config.windowSize
  · rw [attentionRange_full closed covered, length_range]
    exact Nat.le_trans covered (Nat.le_max_left _ _)
  · rw [attentionRange_moved closed (Nat.lt_of_not_le covered), length_append, length_range,
      length_range']
    omega

section Masks

variable {negInfinity : Score} {scores : List Score} {keys : List Nat}

theorem maskPairs_eq (valid : List Nat) (paired : scores.length = keys.length) :
    maskPairs negInfinity valid scores keys =
      List.zipWith (fun score key => if key ∈ valid then score else negInfinity) scores keys := by
  induction scores generalizing keys with
  | nil =>
      rw [length_eq_zero_iff.mp paired.symm]
      rfl
  | cons score scores ih =>
      cases keys with
      | nil => cases paired
      | cons key keys =>
          rw [maskPairs, zipWith_cons_cons, ih (Nat.succ.inj paired)]

/-- The mask keeps exactly the scores of the keys in the window. -/
theorem applySlidingWindowMask_eq (paired : scores.length = keys.length) :
    applySlidingWindowMask negInfinity scores pos keys config =
      List.zipWith (fun score key => if key ≤ pos ∧ isInWindow key pos config = true then score else negInfinity)
        scores keys := by
  have same : ∀ key, (key ∈ (attentionRange pos (pos + 1) config).1) ↔
      (key ≤ pos ∧ isInWindow key pos config = true) := by
    intro key
    refine ⟨fun member => ?_, fun inside => (mem_attentionRange_iff_isInWindow inside.1).mpr inside.2⟩
    have causal := le_of_mem_attentionRange member
    exact ⟨causal, (mem_attentionRange_iff_isInWindow causal).mp member⟩
  rw [applySlidingWindowMask]
  split
  case isFalse => simp only [maskPairs_eq _ paired, same]
  case isTrue closed =>
    have masked : ∀ key, ¬ (key ≤ pos ∧ isInWindow key pos config = true) := by
      intro key inside
      rw [isInWindow, if_pos closed] at inside
      exact absurd inside.2 Bool.false_ne_true
    simp only [if_neg (masked _)]
    refine ext_getElem (by simp [paired]) fun index inside _ => ?_
    rw [getElem_map, getElem_zipWith]

end Masks

section Evictions

variable {default : Entry}

theorem range_split {bound count : Nat} (below : bound ≤ count) :
    List.range count = List.range' 0 bound ++ List.range' bound (count - bound) := by
  have parts := range'_append_1 (s := 0) (m := bound) (n := count - bound)
  rw [Nat.zero_add, Nat.add_sub_cancel' below] at parts
  rw [parts, range_eq_range']

theorem evictFrom_fst (valid : List Nat) (start : Nat) (entries : List Entry) :
    (evictFrom default valid start entries).1 =
      entries.mapIdx fun index entry => if start + index ∈ valid then entry else default := by
  induction entries generalizing start with
  | nil => rfl
  | cons entry entries ih =>
      rw [evictFrom, mapIdx_cons]
      split <;> simp [Nat.add_comm, Nat.add_left_comm, *]

theorem evictFrom_snd (valid : List Nat) (start : Nat) (entries : List Entry) :
    (evictFrom default valid start entries).2 = (List.range' start entries.length).countP fun pos => pos ∉ valid := by
  induction entries generalizing start with
  | nil => rfl
  | cons entry entries ih =>
      rw [evictFrom, length_cons, range'_succ, countP_cons]
      split <;> simp [*]

/-- The positions that an eviction clears: those up to the query that are outside the window. -/
def Outside (pos : Nat) (config : SlidingWindowConfig) (index : Nat) : Prop :=
  index ≤ pos ∧ isInWindow index pos config = false

instance (index : Nat) : Decidable (Outside pos config index) := inferInstanceAs (Decidable (_ ∧ _))

variable {cache : List Entry}

/-- An eviction clears exactly the entries outside the window, and counts them. -/
theorem evictOutsideWindow_eq (open_ : config.windowSize ≠ 0)
    (reached : pos < cache.length ∨ config.windowSize < cache.length) : evictOutsideWindow default cache pos config =
      (cache.mapIdx fun index entry => if Outside pos config index then default else entry,
        (List.range cache.length).countP fun index => Outside pos config index) := by
  have filled : cache ≠ [] := by
    rintro rfl
    rw [length_nil] at reached
    omega
  have listed : ∀ index < min cache.length (pos + 1),
      index ∈ (attentionRange pos (min cache.length (pos + 1)) config).1 ↔ ¬ Outside pos config index := by
    intro index inside
    rw [mem_attentionRange_cached open_ (by omega) (by omega), Outside, not_and, Bool.not_eq_false]
    exact ⟨fun kept _ => kept, fun kept => kept (by omega)⟩
  have later : ∀ index, min cache.length (pos + 1) ≤ index → index < cache.length → ¬ Outside pos config index := by
    rintro index behind inside ⟨causal, _⟩
    omega
  rw [evictOutsideWindow, if_neg (not_or.mpr ⟨open_, filled⟩)]
  dsimp only
  rw [evictFrom_fst, evictFrom_snd, length_take, Nat.min_eq_left (Nat.min_le_left _ _)]
  refine Prod.ext ?_ ?_
  · refine ext_getElem ?_ fun index inside inside' => ?_
    · simp only [length_mapIdx, length_append, length_take, length_drop]
      omega
    rw [length_mapIdx] at inside'
    rw [getElem_mapIdx]
    by_cases seen : index < min cache.length (pos + 1)
    · rw [getElem_append_left (by simp; omega), getElem_mapIdx, getElem_take, Nat.zero_add]
      by_cases outside : Outside pos config index
      · rw [if_pos outside, if_neg fun member => (listed index seen).mp member outside]
      · rw [if_neg outside, if_pos ((listed index seen).mpr outside)]
    · rw [if_neg (later index (Nat.le_of_not_lt seen) inside'), getElem_append_right (by simp; omega),
        getElem_drop]
      congr 1
      simp
      omega
  · have none : (List.range' (min cache.length (pos + 1)) (cache.length - min cache.length (pos + 1))).countP
        (fun index => decide (Outside pos config index)) = 0 := by
      refine countP_eq_zero.mpr fun index member outside => ?_
      obtain ⟨behind, inside⟩ := mem_range'_1.mp member
      exact later index behind (by omega) (of_decide_eq_true outside)
    rw [range_split (Nat.min_le_left cache.length (pos + 1)), countP_append, none, Nat.add_zero]
    refine countP_congr fun index member => ?_
    have seen := (mem_range'_1.mp member).2
    rw [decide_eq_true_eq, decide_eq_true_eq, listed index (by omega), not_not]

/-- An eviction leaves a cache that the window covers, and each cache when the window is closed. -/
theorem evictOutsideWindow_idle (idle : config.windowSize = 0 ∨ cache.length ≤ config.windowSize) :
    evictOutsideWindow default cache pos config = (cache, 0) := by
  by_cases closed : config.windowSize = 0 ∨ cache = []
  · rw [evictOutsideWindow, if_pos closed]
  · obtain ⟨open_, filled⟩ := not_or.mp closed
    have covered : cache.length ≤ config.windowSize := idle.resolve_left open_
    have kept : ∀ index < min cache.length (pos + 1),
        index ∈ (attentionRange pos (min cache.length (pos + 1)) config).1 := by
      intro index inside
      rw [attentionRange_full open_ (by omega), mem_range]
      omega
    rw [evictOutsideWindow, if_neg closed]
    dsimp only
    rw [evictFrom_fst, evictFrom_snd, length_take, Nat.min_eq_left (Nat.min_le_left _ _)]
    refine Prod.ext ?_ ?_
    · have same : (cache.take (min cache.length (pos + 1))).mapIdx (fun index entry =>
          if 0 + index ∈ (attentionRange pos (min cache.length (pos + 1)) config).1 then entry else default) =
          cache.take (min cache.length (pos + 1)) := by
        refine ext_getElem length_mapIdx fun index inside _ => ?_
        rw [length_mapIdx, length_take] at inside
        rw [getElem_mapIdx, Nat.zero_add, if_pos (kept index (by omega))]
      rw [same, take_append_drop]
    · refine countP_eq_zero.mpr fun index member outside => ?_
      have inside := (mem_range'_1.mp member).2
      exact of_decide_eq_true outside (kept index (by omega))

end Evictions

/-- The rules of one window agree: the range and the test on the keys up to the query, the mask on
    each score, and the eviction on each entry, unless the window is closed or covers a cache that ends
    before the query. A range is increasing, has at most the window or the sinks, keeps to the sequence
    unless the window has left it, and contains the query. -/
theorem windowRules_agree (config : SlidingWindowConfig) (pos : Nat) :
    (∀ key ≤ pos, key ∈ (attentionRange pos (pos + 1) config).1 ↔ isInWindow key pos config = true) ∧
      (∀ (Score : Type) (negInfinity : Score) (scores : List Score) (keys : List Nat), scores.length = keys.length →
        applySlidingWindowMask negInfinity scores pos keys config =
          List.zipWith (fun score key => if key ≤ pos ∧ isInWindow key pos config = true then score else negInfinity)
            scores keys) ∧ (∀ (Entry : Type) (default : Entry) (cache : List Entry),
        (config.windowSize ≠ 0 → pos < cache.length ∨ config.windowSize < cache.length →
          evictOutsideWindow default cache pos config =
            (cache.mapIdx fun index entry => if Outside pos config index then default else entry,
              (List.range cache.length).countP fun index => Outside pos config index)) ∧
        (config.windowSize = 0 ∨ cache.length ≤ config.windowSize →
          evictOutsideWindow default cache pos config = (cache, 0))) ∧ ∀ seqLen,
        (attentionRange pos seqLen config).1.Pairwise (· < ·) ∧
          (attentionRange pos seqLen config).2 = (attentionRange pos seqLen config).1.length ∧
          (attentionRange pos seqLen config).2 ≤ max config.windowSize (sinkCount pos seqLen config) ∧
          (∀ key ∈ (attentionRange pos seqLen config).1, key ≤ pos) ∧
          (pos < seqLen ∨ seqLen ≤ config.windowSize ∨ config.windowSize ≤ config.sinkTokens →
            ∀ key ∈ (attentionRange pos seqLen config).1, key < min seqLen (pos + 1)) ∧
          (pos < seqLen → config.sinkTokens < config.windowSize → pos ∈ (attentionRange pos seqLen config).1) := by
  refine ⟨fun key causal => mem_attentionRange_iff_isInWindow causal,
    fun Score negInfinity scores keys paired => applySlidingWindowMask_eq paired,
    fun Entry default cache => ⟨evictOutsideWindow_eq, evictOutsideWindow_idle⟩, fun seqLen =>
    ⟨attentionRange_sorted, attentionRange_count, ?_, fun key => le_of_mem_attentionRange, ?_, ?_⟩⟩
  · rw [attentionRange_count]
    exact length_attentionRange_le
  · intro kept key member
    by_cases closed : config.windowSize = 0
    · rw [attentionRange_closed closed] at member
      cases member
    · rw [mem_attentionRange closed, sinkCount] at member
      split at member <;> omega
  · intro inside wide
    rw [mem_attentionRange (by omega), sinkCount]
    split <;> omega

/-- A closed window clears nothing, more sinks than the window are all listed, and a window that has
    left the sequence lists positions behind its end. -/
theorem windowRules_gap : evictOutsideWindow 0 [7] 0 ⟨0, 0⟩ = ([7], 0) ∧ isInWindow 0 0 ⟨0, 0⟩ = false ∧
      evictOutsideWindow 0 [7, 8] 9 ⟨2, 0⟩ = ([7, 8], 0) ∧ isInWindow 0 9 ⟨2, 0⟩ = false ∧
      attentionRange 9 10 ⟨2, 4⟩ = ([0, 1, 2, 3], 4) ∧ attentionRange 9 5 ⟨3, 1⟩ = ([0, 8, 9], 3) := by
  refine ⟨rfl, rfl, rfl, rfl, rfl, rfl⟩

end Pictor.SlidingWindow
