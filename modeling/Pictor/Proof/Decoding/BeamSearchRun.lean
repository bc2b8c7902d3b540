import Pictor.Construction.Decoding.BeamSearch

namespace Pictor
open List

namespace LogProb

variable {K : Type} [LinearOrder K] {a b c : LogProb K}

theorem not_less_self (a : LogProb K) : less a a = false := by
  cases a <;> simp [less]

theorem less_trans (first : less a b = true) (second : less b c = true) : less a c = true := by
  cases a <;> cases b <;> cases c <;> simp_all [less]
  exact lt_trans first second

/-- A value below the greater value is below it, too. -/
theorem less_of_less_of_not (below : less a b = true) (other : less c b = false) (number : c ≠ nan) :
    less a c = true := by
  cases a <;> cases b <;> cases c <;> simp_all [less]
  exact lt_of_lt_of_le below other

/-- The maximum is a number, none of the values is greater, and it is one of them if they say anything. -/
theorem max_spec (a b : LogProb K) (number : a ≠ nan) :
    max a b ≠ nan ∧ less (max a b) a = false ∧ less (max a b) b = false ∧ (max a b = a ∨ max a b = b) := by
  rw [max, if_neg number]
  cases below : less a b with
  | true =>
      rw [if_pos rfl]
      refine ⟨?_, ?_, not_less_self b, Or.inr rfl⟩
      · rintro rfl
        cases a <;> simp [less] at below
      · cases above : less b a with
        | false => rfl
        | true =>
            have same := less_trans below above
            rw [not_less_self] at same
            cases same
  | false =>
      rw [if_neg Bool.false_ne_true]
      exact ⟨number, not_less_self a, below, Or.inl rfl⟩

theorem fold_max_spec (values : List (LogProb K)) (start : LogProb K) (number : start ≠ nan) :
    values.foldl max start ≠ nan ∧ less (values.foldl max start) start = false ∧
      (∀ value ∈ values, less (values.foldl max start) value = false) ∧
      (values.foldl max start = start ∨ values.foldl max start ∈ values) := by
  induction values generalizing start with
  | nil => exact ⟨number, not_less_self start, nofun, Or.inl rfl⟩
  | cons value values ih =>
      obtain ⟨next, aboveStart, aboveValue, chosen⟩ := max_spec start value number
      obtain ⟨whole, aboveNext, above, found⟩ := ih (max start value) next
      have lift {other : LogProb K} (lower : less (max start value) other = false) :
          less (values.foldl max (max start value)) other = false := by
        cases greater : less (values.foldl max (max start value)) other with
        | false => rfl
        | true =>
            have contrary := less_of_less_of_not greater lower next
            rw [aboveNext] at contrary
            cases contrary
      rw [foldl_cons]
      refine ⟨whole, lift aboveStart, ?_, ?_⟩
      · intro other member
        rcases mem_cons.mp member with rfl | later
        · exact lift aboveValue
        · exact above other later
      · rcases found with same | later
        · rw [same]
          rcases chosen with same | same
          · exact Or.inl same
          · rw [same]
            exact Or.inr mem_cons_self
        · exact Or.inr (mem_cons_of_mem _ later)

end LogProb

namespace BeamSearchEngine

variable {K : Type} [Field K] [LinearOrder K] {engine : BeamSearchEngine K} {logits : List (LogProb K)}
  {prompt tokens other : List UInt32} {step count limit width : Nat} {beam child : Beam K} {alive : List (Beam K)}
  {state : SearchState K}

section Children

variable {Logit : Type} {item : UInt32 × LogProb K}

theorem length_applyNoRepeatNgram (negInfinity : Logit) (logits : List Logit) (tokens : List UInt32) (ngramSize : Nat) :
    (applyNoRepeatNgram negInfinity logits tokens ngramSize).length = logits.length := by
  rw [applyNoRepeatNgram]
  split
  · rfl
  · dsimp only
    generalize List.range _ = starts
    induction starts generalizing logits with
    | nil => rfl
    | cons start starts ih =>
        rw [foldl_cons, ih]
        split
        · split
          · exact length_set
          · rfl
        · rfl

theorem length_maskedLogits (engine : BeamSearchEngine K) (tokens : List UInt32) (step : Nat) :
    (engine.maskedLogits tokens step).length = (engine.getLogits tokens step).values.length := by
  rw [maskedLogits]
  split
  · rw [length_applyNoRepeatNgram, length_map]
  · exact length_map _

theorem applyNoRepeatNgram_mem {negInfinity logit : Logit} {logits : List Logit} {ngramSize : Nat}
    (member : logit ∈ applyNoRepeatNgram negInfinity logits tokens ngramSize) :
    logit ∈ logits ∨ logit = negInfinity := by
  rw [applyNoRepeatNgram] at member
  split at member
  · exact Or.inl member
  · dsimp only at member
    generalize List.range _ = starts at member
    induction starts generalizing logits with
    | nil => exact Or.inl member
    | cons start starts ih =>
        rcases ih member with inside | same
        · dsimp only at inside
          split at inside
          · split at inside
            · exact mem_or_eq_of_mem_set inside
            · exact Or.inl inside
          · exact Or.inl inside
        · exact Or.inr same

theorem masked_numbers (engine : BeamSearchEngine K) (tokens : List UInt32) (step : Nat) :
    ∀ value ∈ engine.maskedLogits tokens step, value ≠ .nan := by
  intro value member
  have finite (listed : value ∈ (engine.getLogits tokens step).values.map LogProb.finite) : value ≠ .nan := by
    obtain ⟨logit, _, rfl⟩ := mem_map.mp listed
    exact nofun
  rw [maskedLogits] at member
  split at member
  · rcases applyNoRepeatNgram_mem member with listed | rfl
    · exact finite listed
    · exact nofun
  · exact finite member

theorem masked_ne_nil (engine : BeamSearchEngine K) (tokens : List UInt32) (step : Nat) :
    engine.maskedLogits tokens step ≠ [] := by
  rw [Ne, ← length_eq_zero_iff, length_maskedLogits, length_eq_zero_iff]
  exact (engine.getLogits tokens step).nonempty

theorem length_logSoftmax (engine : BeamSearchEngine K) (logits : List (LogProb K)) :
    (engine.logSoftmax logits).length = logits.length := by
  rw [logSoftmax, length_map, length_map]

/-- The tokens with their log-probabilities, before the sort. -/
def indexed (engine : BeamSearchEngine K) (logits : List (LogProb K)) : List (UInt32 × LogProb K) :=
  (engine.logSoftmax logits).zipIdx.map fun (value, i) => (UInt32.ofNat i, value)

theorem indexed_tokens (engine : BeamSearchEngine K) (logits : List (LogProb K)) :
    (engine.indexed logits).map Prod.fst = (List.range logits.length).map UInt32.ofNat := by
  rw [indexed, map_map, ← length_logSoftmax engine logits, range_eq_range', ← zipIdx_map_snd 0,
    map_map]
  rfl

theorem indexed_distinct (engine : BeamSearchEngine K) (small : logits.length ≤ 2 ^ 32) :
    ((engine.indexed logits).map Prod.fst).Nodup := by
  rw [indexed_tokens, nodup_map_iff_inj_on nodup_range]
  intro first inside second inside' same
  have equal := congrArg UInt32.toNat same
  rwa [UInt32.toNat_ofNat_of_lt' (Nat.lt_of_lt_of_le (mem_range.mp inside) small),
    UInt32.toNat_ofNat_of_lt' (Nat.lt_of_lt_of_le (mem_range.mp inside') small)] at equal

theorem indexed_entry {normalised : LogProb K → LogProb K} (same : engine.logSoftmax logits = logits.map normalised)
    (member : item ∈ engine.indexed logits) : ∃ value ∈ logits, item.2 = normalised value := by
  obtain ⟨⟨value, i⟩, listed, rfl⟩ := mem_map.mp member
  have inside := fst_mem_of_mem_zipIdx listed
  rw [same] at inside
  obtain ⟨original, inside, equal⟩ := mem_map.mp inside
  exact ⟨original, inside, equal.symm⟩

theorem topK_eq (engine : BeamSearchEngine K) (logits : List (LogProb K)) (k : Nat) : engine.topKLogProbs logits k =
      (engine.sorting.sort (fun a b => LogProb.descending a.2 b.2) (engine.indexed logits)).take k := rfl

theorem length_topK (engine : BeamSearchEngine K) (logits : List (LogProb K)) (k : Nat) :
    (engine.topKLogProbs logits k).length = min k logits.length := by
  rw [topK_eq, length_take, (engine.sorting.perm _ _).length_eq, indexed, length_map, length_zipIdx,
    length_logSoftmax]

theorem topK_token (engine : BeamSearchEngine K) {k : Nat} (member : item ∈ engine.topKLogProbs logits k) :
    ∃ i < logits.length, item.1 = UInt32.ofNat i := by
  have listed := (@StableSort.mem_sort _ _ _ _ engine.sorting).mp (mem_of_mem_take member)
  have token : item.1 ∈ (engine.indexed logits).map Prod.fst := mem_map_of_mem listed
  rw [indexed_tokens] at token
  obtain ⟨i, small, same⟩ := mem_map.mp token
  exact ⟨i, mem_range.mp small, same.symm⟩

theorem topK_distinct (engine : BeamSearchEngine K) (small : logits.length ≤ 2 ^ 32) (k : Nat) :
    ((engine.topKLogProbs logits k).map Prod.fst).Nodup := by
  have sorted := ((engine.sorting.perm (fun a b => LogProb.descending a.2 b.2)
    (engine.indexed logits)).map Prod.fst).nodup_iff.mpr (engine.indexed_distinct small)
  exact sorted.sublist ((take_sublist _ _).map _)

theorem length_masked_le (engine : BeamSearchEngine K) (tokens : List UInt32) (step : Nat) :
    (engine.maskedLogits tokens step).length ≤ 2 ^ 32 := by
  rw [length_maskedLogits]
  exact (engine.getLogits tokens step).small

theorem width_pos (engine : BeamSearchEngine K) : 0 < engine.width := Nat.lt_of_lt_of_le Nat.one_pos (Nat.le_max_right _ _)

/-- A child has one more token, and it is done if this token ends the sequence. -/
theorem mem_children (member : child ∈ engine.children step beam) :
    ∃ token, child.tokens = beam.tokens ++ [token] ∧ (child.isDone = true ↔ token = engine.config.eosTokenId) := by
  obtain ⟨⟨token, logProb⟩, _, rfl⟩ := mem_map.mp member
  exact ⟨token, rfl, decide_eq_true_iff⟩

theorem children_ne_nil (engine : BeamSearchEngine K) (step : Nat) (beam : Beam K) : engine.children step beam ≠ [] := by
  rw [children, Ne, map_eq_nil_iff, ← length_eq_zero_iff, length_topK, length_maskedLogits]
  have some := length_pos_iff.mpr (engine.getLogits beam.tokens step).nonempty
  have wide := engine.width_pos
  omega

theorem children_distinct (engine : BeamSearchEngine K) (step : Nat) (beam : Beam K) :
    ((engine.children step beam).map Beam.tokens).Nodup := by
  have appended : (engine.children step beam).map Beam.tokens =
      ((engine.topKLogProbs (engine.maskedLogits beam.tokens step) engine.width).map Prod.fst).map
        fun token => beam.tokens ++ [token] := by
    rw [children, map_map, map_map]
    rfl
  rw [appended]
  apply (engine.topK_distinct (engine.length_masked_le _ _) _).map
  intro first second same
  exact (List.cons.inj (append_cancel_left same)).1

/-- Different beams have different children. -/
theorem expanded_distinct (engine : BeamSearchEngine K) (step : Nat) (distinct : (alive.map Beam.tokens).Nodup) :
    ((alive.flatMap (engine.children step)).map Beam.tokens).Nodup := by
  rw [map_flatMap, nodup_flatMap]
  refine ⟨fun beam _ => engine.children_distinct step beam, ?_⟩
  rw [nodup_iff_pairwise_ne, pairwise_map] at distinct
  apply distinct.imp
  intro first second apart tokens left right
  obtain ⟨child, member, rfl⟩ := mem_map.mp left
  obtain ⟨child', member', same⟩ := mem_map.mp right
  obtain ⟨_, parts, _⟩ := mem_children member
  obtain ⟨_, parts', _⟩ := mem_children member'
  rw [parts, parts'] at same
  exact apart (append_inj' same rfl).1.symm

end Children

section Sequences

/-- The sequence goes on with tokens that do not end it. -/
def Open (engine : BeamSearchEngine K) (prompt : List UInt32) (count : Nat) (tokens : List UInt32) : Prop :=
  ∃ generated, tokens = prompt ++ generated ∧ generated.length = count ∧ engine.config.eosTokenId ∉ generated

/-- The sequence ends with the first token that ends it. -/
def Closed (engine : BeamSearchEngine K) (prompt : List UInt32) (limit : Nat) (tokens : List UInt32) : Prop :=
  ∃ count < limit, ∃ front, engine.Open prompt count front ∧ tokens = front ++ [engine.config.eosTokenId]

theorem Open.length (opened : engine.Open prompt count tokens) : tokens.length = prompt.length + count := by
  obtain ⟨generated, rfl, rfl, _⟩ := opened
  exact length_append

theorem Closed.length_le (closed : engine.Closed prompt limit tokens) : tokens.length ≤ prompt.length + limit := by
  obtain ⟨count, within, front, opened, rfl⟩ := closed
  rw [length_append, opened.length, length_singleton]
  omega

theorem Closed.mono (closed : engine.Closed prompt count tokens) (more : count ≤ limit) :
    engine.Closed prompt limit tokens := by
  obtain ⟨number, within, rest⟩ := closed
  exact ⟨number, Nat.lt_of_lt_of_le within more, rest⟩

theorem Open.extends (opened : engine.Open prompt count tokens) : prompt <+: tokens := by
  obtain ⟨generated, rfl, _⟩ := opened
  exact List.prefix_append _ _

theorem Closed.extends (closed : engine.Closed prompt limit tokens) : prompt <+: tokens := by
  obtain ⟨_, _, front, opened, rfl⟩ := closed
  exact opened.extends.trans (List.prefix_append _ _)

/-- An open sequence with one more token is open or closed. -/
theorem Open.of_child (opened : engine.Open prompt step beam.tokens) (member : child ∈ engine.children step beam) :
    if child.isDone = true then engine.Closed prompt (step + 1) child.tokens
    else engine.Open prompt (step + 1) child.tokens := by
  obtain ⟨token, parts, ends⟩ := mem_children member
  split
  case isTrue done => exact ⟨step, Nat.lt_succ_self step, beam.tokens, opened, ends.mp done ▸ parts⟩
  case isFalse live =>
    obtain ⟨generated, same, rfl, absent⟩ := opened
    refine ⟨generated ++ [token], ?_, length_append, ?_⟩
    · rw [parts, same, append_assoc]
    · rw [mem_append, mem_singleton, not_or]
      exact ⟨absent, fun equal => live (ends.mpr equal.symm)⟩

/-- No sequence of a step is an ancestor of another one. -/
theorem apart (first : engine.Closed prompt limit tokens ∨ engine.Open prompt limit tokens)
    (second : engine.Closed prompt limit other ∨ engine.Open prompt limit other) (within : tokens <+: other) :
    tokens = other := by
  rcases first with ⟨_, _, _, ⟨generated, rfl, _⟩, rfl⟩ | opened
  · rw [append_assoc] at within ⊢
    have ended (rest : List UInt32) (absent : engine.config.eosTokenId ∉ rest)
        (inside : generated ++ [engine.config.eosTokenId] <+: rest) : False :=
      absent (inside.subset (mem_append_right _ mem_cons_self))
    rcases second with ⟨_, _, _, ⟨rest, rfl, _, absent⟩, rfl⟩ | ⟨rest, rfl, _, absent⟩
    · rw [append_assoc, prefix_append_right_inj] at within
      rcases prefix_concat_iff.mp within with same | inside
      · rw [same, append_assoc]
      · exact (ended rest absent inside).elim
    · rw [prefix_append_right_inj] at within
      exact (ended rest absent within).elim
  · apply within.eq_of_length_le
    rw [opened.length]
    rcases second with closed | open'
    · exact closed.length_le
    · exact Nat.le_of_eq open'.length

end Sequences

section Rounds

def live (state : SearchState K) : List (Beam K) := state.beams.filter fun beam => !beam.isDone

def expanded (engine : BeamSearchEngine K) (step : Nat) (state : SearchState K) : List (Beam K) :=
  (live state).flatMap (engine.children step)

def candidates (engine : BeamSearchEngine K) (step : Nat) (state : SearchState K) : List (Beam K) :=
  (engine.expanded step state).filter fun beam => !engine.finishes beam

/-- The beams that are completed after a step. -/
def completedAfter (engine : BeamSearchEngine K) (step : Nat) (state : SearchState K) : List (Beam K) :=
  state.completed ++ (engine.expanded step state).filter engine.finishes ++ (state.beams.filter Beam.isDone).reverse

/-- The state after a step that keeps candidates. -/
def pruned (engine : BeamSearchEngine K) (step : Nat) (state : SearchState K) : SearchState K :=
  ⟨engine.pruneBeams (engine.candidates step state) engine.width, engine.completedAfter step state, step + 1⟩

/-- The search is cut because a completed beam scored at least as well. -/
def outscored (engine : BeamSearchEngine K) (state : SearchState K) : Bool :=
  engine.config.earlyStopping && !state.completed.isEmpty &&
    (engine.bestScore state.completed).atLeast (engine.bestScore state.beams)

theorem round_eq (engine : BeamSearchEngine K) (step : Nat) (state : SearchState K) : engine.round step state =
      if (live state).isEmpty then ({ state with steps := step }, false)
      else if (engine.candidates step state).isEmpty then
        (⟨live state, engine.completedAfter step state, step + 1⟩, false)
      else (engine.pruned step state, !engine.outscored (engine.pruned step state)) := rfl

/-- The beams before a step are open or done, and no two sequences are the same. -/
structure Searching (engine : BeamSearchEngine K) (prompt : List UInt32) (step : Nat) (state : SearchState K) :
    Prop where
  beams : ∀ beam ∈ state.beams, if beam.isDone = true then engine.Closed prompt step beam.tokens
    else engine.Open prompt step beam.tokens
  completed : ∀ beam ∈ state.completed, engine.Closed prompt step beam.tokens
  distinct : ((state.completed ++ state.beams).map Beam.tokens).Nodup

theorem searching_start (engine : BeamSearchEngine K) (prompt : List UInt32) :
    engine.Searching prompt 0 (start prompt) where
  beams := by
    intro beam member
    rw [mem_singleton.mp member]
    exact ⟨[], (append_nil _).symm, rfl, not_mem_nil⟩
  completed := nofun
  distinct := nodup_singleton _

variable (searching : engine.Searching prompt step state)
include searching

theorem Searching.opened (member : beam ∈ live state) : engine.Open prompt step beam.tokens := by
  obtain ⟨inside, notDone⟩ := mem_filter.mp member
  have kind := searching.beams beam inside
  rwa [if_neg (by simpa using notDone)] at kind

theorem Searching.expanded (member : child ∈ engine.expanded step state) :
    if child.isDone = true then engine.Closed prompt (step + 1) child.tokens
    else engine.Open prompt (step + 1) child.tokens := by
  obtain ⟨beam, inside, member⟩ := mem_flatMap.mp member
  exact (searching.opened inside).of_child member

theorem Searching.length_expanded (member : child ∈ engine.expanded step state) :
    child.tokens.length = prompt.length + step + 1 := by
  obtain ⟨beam, inside, member⟩ := mem_flatMap.mp member
  obtain ⟨token, parts, _⟩ := mem_children member
  rw [parts, length_append, (searching.opened inside).length]
  rfl

theorem Searching.completedAfter :
    ∀ beam ∈ engine.completedAfter step state, engine.Closed prompt (step + 1) beam.tokens := by
  intro beam member
  rw [BeamSearchEngine.completedAfter, mem_append, mem_append, mem_reverse, mem_filter,
    mem_filter, finishes, Bool.and_eq_true] at member
  rcases member with (old | ⟨new, _, done⟩) | ⟨before, done⟩
  · exact (searching.completed beam old).mono (Nat.le_succ step)
  · have kind := searching.expanded new
    rwa [if_pos done] at kind
  · have kind := searching.beams beam before
    rw [if_pos done] at kind
    exact kind.mono (Nat.le_succ step)

/-- Children are longer than the completed beams and than the done ones. -/
theorem Searching.distinct_after :
    ((engine.completedAfter step state ++ engine.candidates step state).map Beam.tokens).Nodup := by
  have whole : (engine.completedAfter step state ++ engine.candidates step state).Perm
      (state.completed ++ state.beams.filter Beam.isDone ++ engine.expanded step state) := by
    have split := filter_append_perm engine.finishes (engine.expanded step state)
    have turned := (reverse_perm (state.beams.filter Beam.isDone))
    rw [BeamSearchEngine.completedAfter, BeamSearchEngine.candidates, append_assoc, append_assoc,
      append_assoc]
    apply List.Perm.append_left
    refine (List.Perm.append_left _ (turned.append_right _)).trans ?_
    rw [← append_assoc]
    refine (perm_append_comm.append_right _).trans ?_
    rw [append_assoc]
    exact split.append_left _
  rw [(whole.map Beam.tokens).nodup_iff, map_append, nodup_append]
  refine ⟨?_, ?_, ?_⟩
  · exact searching.distinct.sublist (((filter_sublist).append_left _).map _)
  · apply engine.expanded_distinct
    exact searching.distinct.sublist (((filter_sublist).trans (sublist_append_right _ _)).map _)
  · rintro tokens old _ new rfl
    obtain ⟨child, member, same⟩ := mem_map.mp new
    obtain ⟨beam, member', rfl⟩ := mem_map.mp old
    have long := searching.length_expanded member
    have short : beam.tokens.length ≤ prompt.length + step := by
      rcases mem_append.mp member' with completed | done
      · exact (searching.completed beam completed).length_le
      · obtain ⟨inside, done⟩ := mem_filter.mp done
        have kind := searching.beams beam inside
        rw [if_pos done] at kind
        exact kind.length_le
    rw [same] at long
    omega

/-- A step keeps the invariant. -/
theorem Searching.pruned : engine.Searching prompt (step + 1) (engine.pruned step state) where
  beams := by
    intro beam member
    have inside := (@StableSort.mem_sort _ _ _ _ engine.sorting).mp (mem_of_mem_take member)
    exact searching.expanded (mem_of_mem_filter inside)
  completed := searching.completedAfter
  distinct := by
    have sorted : ((engine.completedAfter step state ++ engine.sortByScore (engine.candidates step state)).map
        Beam.tokens).Nodup := by
      rw [sortByScore, (((engine.sorting.perm _ _).append_left _).map Beam.tokens).nodup_iff]
      exact searching.distinct_after
    exact sorted.sublist (((take_sublist _ _).append_left _).map _)

omit searching

theorem outscored_spec (cut : engine.outscored state = true) :
    engine.config.earlyStopping = true ∧ ∀ beam ∈ state.beams, ∃ other ∈ state.completed,
      LogProb.less (engine.score other) (engine.score beam) = false := by
  rw [outscored, Bool.and_eq_true, Bool.and_eq_true, LogProb.atLeast, Bool.and_eq_true, Bool.and_eq_true] at cut
  obtain ⟨⟨early, some⟩, _, least⟩ := cut
  refine ⟨early, fun beam member => ?_⟩
  obtain ⟨_, _, above, found⟩ := LogProb.fold_max_spec (state.completed.map engine.score) .negInfinity nofun
  obtain ⟨number, _, highest, _⟩ := LogProb.fold_max_spec (state.beams.map engine.score) .negInfinity nofun
  have below := highest _ (mem_map_of_mem member)
  -- the greatest completed score is the score of a beam, or all these scores say nothing
  obtain ⟨other, inside, lower⟩ : ∃ other ∈ state.completed, ∀ value,
      LogProb.less (engine.score other) value = true → LogProb.less (engine.bestScore state.completed) value = true := by
    rcases found with none | listed
    · obtain ⟨other, inside⟩ := exists_mem_of_ne_nil state.completed (by simpa using some)
      have small := above _ (mem_map_of_mem inside)
      rw [none] at small
      refine ⟨other, inside, fun value less => ?_⟩
      rw [bestScore, none]
      cases same : engine.score other with
      | finite => rw [same] at small; cases small
      | negInfinity => rwa [same] at less
      | nan => rw [same] at less; cases less
    · obtain ⟨other, inside, same⟩ := mem_map.mp listed
      refine ⟨other, inside, fun value less => ?_⟩
      rwa [bestScore, ← same]
  refine ⟨other, inside, ?_⟩
  cases less : LogProb.less (engine.score other) (engine.score beam) with
  | false => rfl
  | true =>
      have contrary := LogProb.less_of_less_of_not (lower _ less) below number
      change (!LogProb.less (engine.bestScore state.completed) (engine.bestScore state.beams)) = true at least
      rw [bestScore, bestScore] at least
      rw [bestScore] at contrary
      rw [contrary] at least
      cases least

/-- The search stops after all steps, without a live beam, cut by a completed beam, or with children that all are done. -/
inductive Halted (engine : BeamSearchEngine K) (prompt : List UInt32) : SearchState K → Prop
  | within {step : Nat} {state : SearchState K} (searching : engine.Searching prompt step state)
      (limit : step ≤ engine.config.maxTokens)
      (halts : ∀ beam ∈ state.beams, beam.isDone = false → step = engine.config.maxTokens ∨
        engine.config.earlyStopping = true ∧ ∃ other ∈ state.completed,
          LogProb.less (engine.score other) (engine.score beam) = false) : Halted engine prompt state
  | stuck {step : Nat} {before : SearchState K} (searching : engine.Searching prompt step before)
      (remains : live before ≠ []) (done : engine.candidates step before = []) :
      Halted engine prompt ⟨live before, engine.completedAfter step before, step + 1⟩

theorem loop_halted {remaining : Nat} (searching : engine.Searching prompt step state)
    (bound : step + remaining = engine.config.maxTokens) :
    engine.Halted prompt (engine.loop remaining step state) := by
  induction remaining generalizing step state with
  | zero => exact .within searching (Nat.le_of_eq bound) fun _ _ _ => Or.inl bound
  | succ remaining ih =>
      rw [loop, round_eq]
      split
      case isTrue none =>
        have same : engine.Searching prompt step ⟨state.beams, state.completed, step⟩ :=
          ⟨searching.beams, searching.completed, searching.distinct⟩
        apply Halted.within same (by omega)
        intro beam member notDone
        have inside : beam ∈ live state := mem_filter.mpr ⟨member, by rw [notDone]; rfl⟩
        rw [List.isEmpty_iff.mp none] at inside
        cases inside
      case isFalse some =>
        split
        case isTrue done =>
          exact .stuck searching (fun none => some (List.isEmpty_iff.mpr none)) (List.isEmpty_iff.mp done)
        case isFalse =>
          dsimp only
          cases cut : engine.outscored (engine.pruned step state) with
          | false => exact ih searching.pruned (by omega)
          | true =>
              obtain ⟨early, outdone⟩ := outscored_spec cut
              exact .within searching.pruned (by omega) fun beam member _ => Or.inr ⟨early, outdone beam member⟩

theorem stopped_halted (engine : BeamSearchEngine K) (prompt : List UInt32) :
    engine.Halted prompt (engine.stopped prompt) :=
  loop_halted (engine.searching_start prompt) (Nat.zero_add _)

end Rounds

end BeamSearchEngine

end Pictor
