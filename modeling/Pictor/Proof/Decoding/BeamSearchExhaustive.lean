import Pictor.Proof.Decoding.BeamSearchEnough

namespace Pictor
open List

namespace LogProb

variable {K : Type} [LinearOrder K]

theorem max_right_comm (a b c : LogProb K) : max (max a b) c = max (max a c) b := by
  cases a <;> cases b <;> cases c <;> simp only [max, less, reduceCtorEq, if_true, if_false, Bool.false_eq_true] <;>
    grind

theorem max_negInfinity (a : LogProb K) (number : a ≠ nan) : max a negInfinity = a := by
  cases a <;> simp_all [max, less]

/-- Negative infinity does not count for a maximum. -/
theorem fold_max_finite {values : List (LogProb K)} (numbers : ∀ value ∈ values, value ≠ nan) (start : LogProb K)
    (number : start ≠ nan) : (values.filter isFinite).foldl max start = values.foldl max start := by
  induction values generalizing start with
  | nil => rfl
  | cons value values ih =>
      obtain ⟨here, others⟩ := forall_mem_cons.mp numbers
      have next := (max_spec start value number).1
      cases value with
      | finite value => exact ih others _ next
      | negInfinity =>
          rw [filter_cons_of_neg (by simp [isFinite]), foldl_cons, max_negInfinity start number]
          exact ih others start number
      | nan => exact absurd rfl here

end LogProb

namespace BeamSearchEngine

variable {K : Type} [LinearOrder K] [Field K] [IsStrictOrderedRing K] {engine : BeamSearchEngine K}
  {prompt : List UInt32} {step remaining : Nat} {beam child : Beam K} {beams other finished leaves : List (Beam K)}
  {state : SearchState K} {met : Bool}

section Reached

/-- The states before the steps of a search. -/
inductive Reached (engine : BeamSearchEngine K) (prompt : List UInt32) : Nat → SearchState K → Prop
  | start : Reached engine prompt 0 (start prompt)
  | step {step : Nat} {state : SearchState K} (reached : Reached engine prompt step state)
      (within : step < engine.config.maxTokens) (goes : (engine.round step state).2 = true) :
      Reached engine prompt (step + 1) (engine.round step state).1

/-- Each live beam always has a token that is not masked. -/
def Fed (engine : BeamSearchEngine K) (prompt : List UInt32) : Prop :=
  ∀ step state, engine.Reached prompt step state → step < engine.config.maxTokens →
    ∀ beam ∈ live state, engine.Allowed step beam

omit [IsStrictOrderedRing K] in
/-- What each outcome of a step keeps holds of the state in which the search stops. -/
theorem loop_keeps {holds : SearchState K → Prop} (fed : engine.Fed prompt)
    (still : ∀ state steps, holds state → holds { state with steps })
    (stuck : ∀ step state, (∀ beam ∈ live state, engine.Allowed step beam) → engine.candidates step state = [] →
      holds state → holds ⟨live state, engine.completedAfter step state, step + 1⟩)
    (pruned : ∀ step state, (∀ beam ∈ live state, engine.Allowed step beam) → holds state →
      holds (engine.pruned step state))
    (reached : engine.Reached prompt step state) (bound : step + remaining = engine.config.maxTokens)
    (here : holds state) : holds (engine.loop remaining step state) := by
  induction remaining generalizing step state with
  | zero => exact here
  | succ remaining ih =>
      have within : step < engine.config.maxTokens := by omega
      have allowed := fed step state reached within
      have next := reached.step within
      rw [loop]
      rw [round_eq] at next ⊢
      split
      case isTrue => exact still state step here
      case isFalse some =>
        rw [if_neg some] at next
        split
        case isTrue none => exact stuck step state allowed (List.isEmpty_iff.mp none) here
        case isFalse remain =>
          rw [if_neg remain] at next
          dsimp only at next ⊢
          split
          case isTrue goes => exact ih (next goes) (by omega) (pruned step state allowed here)
          case isFalse => exact pruned step state allowed here

theorem loop_followed (positive : 0 < engine.config.noRepeatNgramSize) (fed : engine.Fed prompt)
    (reached : engine.Reached prompt step state) (bound : step + remaining = engine.config.maxTokens)
    (followed : engine.Followed prompt state) : engine.Followed prompt (engine.loop remaining step state) :=
  loop_keeps fed (fun _ _ here => ⟨here.traced, here.done, here.early⟩)
    (fun _ _ allowed _ here => here.stuck positive allowed _) (fun _ _ allowed here => here.pruned positive allowed)
    reached bound followed

/-- A search with as many finite beams as the width stops with as many. -/
theorem loop_saturated (positive : 0 < engine.config.noRepeatNgramSize) (fed : engine.Fed prompt)
    (reached : engine.Reached prompt step state) (bound : step + remaining = engine.config.maxTokens)
    (followed : engine.Followed prompt state) (enough : engine.width ≤ kept state) :
    engine.width ≤ kept (engine.loop remaining step state) := by
  have both := @loop_keeps _ _ _ engine prompt step remaining state
    (fun state => engine.Followed prompt state ∧ engine.width ≤ kept state) fed
    (fun _ _ here => ⟨⟨here.1.traced, here.1.done, here.1.early⟩, here.2⟩)
    (fun step state allowed none here => ⟨here.1.stuck positive allowed _, by
      have size := kept_stuck none (step + 1)
      have enough := here.2
      rw [kept_eq] at enough
      omega⟩)
    (fun _ _ allowed here => ⟨here.1.pruned positive allowed, saturated_pruned positive here.1 allowed here.2⟩)
    reached bound ⟨followed, enough⟩
  exact both.2

end Reached

section Exhaustive

/-- A token of a leaf is masked. -/
def meets (engine : BeamSearchEngine K) (step : Nat) (leaves : List (Beam K)) : Bool :=
  leaves.any fun leaf => (engine.maskedLogits leaf.tokens step).any fun value => !value.isFinite

/-- The search without masked tokens and without a bound. It finds as many sequences as the width, or it never meets a
masked token before it stops. -/
def Ample (engine : BeamSearchEngine K) : Nat → Nat → Bool → List (Beam K) → List (Beam K) → Prop
  | 0, _, met, _, _ => met = false
  | remaining + 1, step, met, finished, leaves =>
      let children := leaves.flatMap (engine.allowed step)
      let met := met || engine.meets step leaves
      let finished := finished ++ children.filter Beam.isDone
      let leaves := children.filter fun child => !child.isDone
      engine.width ≤ finished.length + leaves.length ∨
        if engine.outscored ⟨leaves, finished, step + 1⟩ = true then met = false
        else Ample engine remaining (step + 1) met finished leaves

/-- Below the width, the finite beams of the search are the sequences of the exhaustive one. -/
structure Tracks (engine : BeamSearchEngine K) (state : SearchState K) (met : Bool) (finished leaves : List (Beam K)) :
    Prop where
  same : (finites (state.completed ++ state.beams)).Perm (finished ++ leaves)
  ended : ∀ beam ∈ finished, beam.isDone = true
  going : ∀ beam ∈ leaves, beam.isDone = false
  few : finished.length + leaves.length < engine.width
  some : 0 < finished.length + leaves.length
  lost : met = true ↔ ∃ beam ∈ state.completed ++ state.beams, beam.logProb.isFinite = false
  varied : met = true → ∃ tokens step, 2 ≤ (engine.getLogits tokens step).values.length

omit [IsStrictOrderedRing K] [LinearOrder K] [Field K] in
theorem finites_filter (kind : Beam K → Bool) (beams : List (Beam K)) :
    (finites beams).filter kind = finites (beams.filter kind) := by
  rw [finites, finites, filter_filter, filter_filter]
  congr 1
  funext beam
  exact Bool.and_comm _ _

omit [IsStrictOrderedRing K] in
theorem Tracks.live_perm (followed : engine.Followed prompt state) (tracks : engine.Tracks state met finished leaves) :
    (finites (live state)).Perm leaves := by
  have open' := tracks.same.filter fun beam => !beam.isDone
  have none : state.completed.filter (fun beam => !beam.isDone) = [] := by
    rw [filter_eq_nil_iff]
    intro beam member
    simp [followed.done beam member]
  have none' : finished.filter (fun beam => !beam.isDone) = [] := by
    rw [filter_eq_nil_iff]
    intro beam member
    simp [tracks.ended beam member]
  have all : leaves.filter (fun beam => !beam.isDone) = leaves := by
    rw [filter_eq_self]
    intro beam member
    simp [tracks.going beam member]
  rwa [finites_filter, filter_append, filter_append, none, none', all, nil_append, nil_append] at open'

omit [IsStrictOrderedRing K] in
theorem Tracks.done_perm (followed : engine.Followed prompt state) (tracks : engine.Tracks state met finished leaves) :
    (finites (state.completed ++ state.beams.filter Beam.isDone)).Perm finished := by
  have closed := tracks.same.filter Beam.isDone
  have all : state.completed.filter Beam.isDone = state.completed := filter_eq_self.mpr followed.done
  have all' : finished.filter Beam.isDone = finished := filter_eq_self.mpr tracks.ended
  have none : leaves.filter Beam.isDone = [] := by
    rw [filter_eq_nil_iff]
    intro beam member
    simp [tracks.going beam member]
  rwa [finites_filter, filter_append, filter_append, all, all', none, append_nil] at closed

omit [IsStrictOrderedRing K] in
theorem bestScore_perm (permuted : beams.Perm other) : engine.bestScore beams = engine.bestScore other := by
  rw [bestScore, bestScore]
  apply (permuted.map engine.score).foldl_eq'
  intro a _ b _ start
  exact LogProb.max_right_comm start a b

omit [IsStrictOrderedRing K] in
theorem bestScore_finites (traced : ∀ beam ∈ beams, engine.Traced prompt beam) :
    engine.bestScore (finites beams) = engine.bestScore beams := by
  have numbers : ∀ value ∈ beams.map engine.score, value ≠ .nan := by
    intro value member
    obtain ⟨beam, inside, rfl⟩ := mem_map.mp member
    exact score_number traced beam inside
  have whole := LogProb.fold_max_finite numbers .negInfinity nofun
  have same : (fun beam => beam.logProb.isFinite) = LogProb.isFinite ∘ engine.score := by
    funext beam
    exact (isFinite_score engine beam).symm
  rw [bestScore, bestScore, ← whole, filter_map, finites, same]

omit [IsStrictOrderedRing K] in
/-- Both searches are cut at the same step. -/
theorem Tracks.outscored_eq (followed : engine.Followed prompt state)
    (tracks : engine.Tracks state met finished leaves) (steps : Nat) :
    engine.outscored state = engine.outscored ⟨leaves, finished, steps⟩ := by
  cases early : engine.config.earlyStopping with
  | false => rw [outscored, outscored, early, Bool.false_and, Bool.false_and, Bool.false_and, Bool.false_and]
  | true =>
      have open' := followed.early early
      have none : state.beams.filter Beam.isDone = [] := by
        rw [filter_eq_nil_iff]
        intro beam member
        simp [open' beam member]
      have all : live state = state.beams := by
        rw [live, filter_eq_self]
        intro beam member
        simp [open' beam member]
      have closed := tracks.done_perm followed
      have going := tracks.live_perm followed
      rw [none, append_nil] at closed
      rw [all] at going
      have completed : engine.bestScore state.completed = engine.bestScore finished := by
        rw [← bestScore_finites fun beam member => followed.traced beam (mem_append_left _ member)]
        exact bestScore_perm closed
      have beams : engine.bestScore state.beams = engine.bestScore leaves := by
        rw [← bestScore_finites fun beam member => followed.traced beam (mem_append_right _ member)]
        exact bestScore_perm going
      rw [outscored, outscored, completed, beams]
      cases finished with
      | cons first rest =>
          have member : first ∈ state.completed := mem_of_mem_filter (closed.mem_iff.mpr mem_cons_self)
          have some : state.completed.isEmpty = false := by
            cases same : state.completed with
            | nil => rw [same] at member; cases member
            | cons => rfl
          rw [some]
          rfl
      | nil =>
          -- without a finite completed beam, some finite live beam scores more than negative infinity
          have below : (engine.bestScore ([] : List (Beam K))).atLeast (engine.bestScore leaves) = false := by
            obtain ⟨leaf, member⟩ := exists_mem_of_ne_nil leaves (by
              rintro rfl
              have some := tracks.some
              rw [length_nil] at some
              omega)
            have finite : leaf.logProb.isFinite = true := (mem_filter.mp (going.mem_iff.mpr member)).2
            rw [← isFinite_score engine] at finite
            obtain ⟨number, _, above, _⟩ := LogProb.fold_max_spec (leaves.map engine.score) .negInfinity (by rintro ⟨⟩)
            have least := above _ (mem_map_of_mem member)
            change LogProb.atLeast .negInfinity (engine.bestScore leaves) = false
            change engine.bestScore leaves ≠ .nan at number
            change LogProb.less (engine.bestScore leaves) _ = false at least
            cases best : engine.bestScore leaves with
            | finite => rfl
            | nan => exact absurd best number
            | negInfinity =>
                cases value : engine.score leaf with
                | finite => rw [best, value] at least; cases least
                | negInfinity => rw [value] at finite; cases finite
                | nan => rw [value] at finite; cases finite
          rw [below]
          simp

omit [IsStrictOrderedRing K] [LinearOrder K] [Field K] in
theorem exists_lost (fewer : (finites beams).length < beams.length) : ∃ beam ∈ beams, beam.logProb.isFinite = false := by
  obtain ⟨beam, member, lost⟩ := length_filter_lt_length_iff_exists.mp fewer
  exact ⟨beam, member, by simpa using lost⟩

/-- A masked token is taken when fewer tokens are allowed than the beams are wide. -/
theorem lost_child (finite : beam.logProb.isFinite = true) (allowed : engine.Allowed step beam)
    (few : (engine.allowed step beam).length < engine.width)
    (masked : ∃ value ∈ engine.maskedLogits beam.tokens step, value.isFinite = false) :
    ∃ child ∈ engine.children step beam, child.logProb.isFinite = false := by
  obtain ⟨value, member, lost⟩ := masked
  obtain ⟨item, inside, same⟩ := indexed_of_masked allowed member
  have fewer : (engine.allowed step beam).length < (engine.maskedLogits beam.tokens step).length := by
    have shorter : ((engine.indexed (engine.maskedLogits beam.tokens step)).filter fun item => item.2.isFinite).length <
        (engine.indexed (engine.maskedLogits beam.tokens step)).length :=
      length_filter_lt_length_iff_exists.mpr ⟨item, inside, by rw [same, lost]; nofun⟩
    rw [BeamSearchEngine.allowed, length_map]
    refine Nat.lt_of_lt_of_eq shorter ?_
    rw [indexed, length_map, length_zipIdx, length_logSoftmax]
  apply exists_lost
  rw [length_finites_children finite allowed, children, length_map, length_topK]
  omega

/-- A child without a finite log-probability remains while finite beams are few. -/
theorem lost_after (positive : 0 < engine.config.noRepeatNgramSize) (followed : engine.Followed prompt state)
    (allowed : ∀ beam ∈ live state, engine.Allowed step beam)
    (few : (finites (engine.candidates step state)).length < engine.width)
    (member : child ∈ engine.expanded step state) (lost : child.logProb.isFinite = false) :
    ∃ beam ∈ (engine.pruned step state).completed ++ (engine.pruned step state).beams, beam.logProb.isFinite = false := by
  cases finished : engine.finishes child with
  | true =>
      refine ⟨child, mem_append_left _ (mem_append_left _ (mem_append_right _ ?_)), lost⟩
      exact mem_filter.mpr ⟨member, finished⟩
  | false =>
      have candidate : child ∈ engine.candidates step state := mem_filter.mpr ⟨member, by rw [finished]; rfl⟩
      have fewer : (finites (engine.candidates step state)).length < (engine.candidates step state).length :=
        length_filter_lt_length_iff_exists.mpr ⟨child, candidate, by rw [lost]; nofun⟩
      have taken := length_finites_take (candidates_traced positive followed allowed) engine.width
      have whole : ((engine.sortByScore (engine.candidates step state)).take engine.width).length =
          min engine.width (engine.candidates step state).length := by
        rw [length_take, sortByScore, (engine.sorting.perm _ _).length_eq]
      obtain ⟨beam, inside, lost⟩ := @exists_lost _ ((engine.sortByScore (engine.candidates step state)).take engine.width)
        (by omega)
      exact ⟨beam, mem_append_right _ inside, lost⟩

omit [IsStrictOrderedRing K] in
theorem Tracks.leaf (followed : engine.Followed prompt state) (tracks : engine.Tracks state met finished leaves)
    (member : beam ∈ leaves) : beam ∈ live state ∧ beam.logProb.isFinite = true :=
  mem_filter.mp ((tracks.live_perm followed).mem_iff.mpr member)

omit [IsStrictOrderedRing K] in
theorem allowed_length_le (engine : BeamSearchEngine K) (step : Nat) (member : beam ∈ leaves) :
    (engine.allowed step beam).length ≤ (leaves.flatMap (engine.allowed step)).length := by
  obtain ⟨front, back, rfl⟩ := append_of_mem member
  rw [flatMap_append, flatMap_cons, length_append, length_append]
  omega

/-- Below the width, the finite children of a step are all allowed ones. -/
theorem Tracks.expanded_perm (followed : engine.Followed prompt state)
    (allowed : ∀ beam ∈ live state, engine.Allowed step beam) (tracks : engine.Tracks state met finished leaves)
    (few : (leaves.flatMap (engine.allowed step)).length ≤ engine.width) :
    (finites (engine.expanded step state)).Perm (leaves.flatMap (engine.allowed step)) := by
  have leavesPerm := tracks.live_perm followed
  rw [finites_expanded]
  refine List.Perm.trans (List.Perm.flatMap_left _ fun beam member => ?_) (leavesPerm.flatMap_right _)
  obtain ⟨inside, finite⟩ := mem_filter.mp member
  have fewer := engine.allowed_length_le step (leavesPerm.mem_iff.mp member)
  exact finites_children_perm finite (allowed beam inside) (fewer.trans few)

omit [IsStrictOrderedRing K] in
theorem meets_iff : engine.meets step leaves = true ↔
    ∃ leaf ∈ leaves, ∃ value ∈ engine.maskedLogits leaf.tokens step, value.isFinite = false := by
  simp [meets]

omit [IsStrictOrderedRing K] in
/-- A masked and an unmasked token are two. -/
theorem two_logits (allowed : engine.Allowed step beam)
    (masked : ∃ value ∈ engine.maskedLogits beam.tokens step, value.isFinite = false) :
    2 ≤ (engine.getLogits beam.tokens step).values.length := by
  obtain ⟨value, member⟩ := allowed
  obtain ⟨other, member', lost⟩ := masked
  rw [← length_maskedLogits]
  generalize engine.maskedLogits beam.tokens step = logits at member member'
  match logits with
  | [] => cases member
  | [logit] =>
      rw [mem_singleton.mp member', ← mem_singleton.mp member] at lost
      cases lost
  | _ :: _ :: rest =>
      rw [length_cons, length_cons]
      omega

/-- A step of the search is a step of the exhaustive one. -/
theorem Tracks.next (positive : 0 < engine.config.noRepeatNgramSize) (followed : engine.Followed prompt state)
    (allowed : ∀ beam ∈ live state, engine.Allowed step beam) (tracks : engine.Tracks state met finished leaves)
    (few : finished.length + (leaves.flatMap (engine.allowed step)).length < engine.width) :
    engine.Tracks (engine.pruned step state) (met || engine.meets step leaves)
      (finished ++ (leaves.flatMap (engine.allowed step)).filter Beam.isDone)
      ((leaves.flatMap (engine.allowed step)).filter fun child => !child.isDone) := by
  have expanded := tracks.expanded_perm followed allowed (by omega)
  have split := engine.length_finites_split step state
  have size := expanded.length_eq
  have candidates : (finites (engine.candidates step state)).length < engine.width := by omega
  have taken := finites_take_perm (candidates_traced positive followed allowed) (Nat.le_of_lt candidates)
  have parts := filter_append_perm Beam.isDone (leaves.flatMap (engine.allowed step))
  have whole : (finished ++ (leaves.flatMap (engine.allowed step)).filter Beam.isDone ++
      (leaves.flatMap (engine.allowed step)).filter fun child => !child.isDone).Perm
        (finished ++ leaves.flatMap (engine.allowed step)) := by
    rw [append_assoc]
    exact parts.append_left _
  have total := whole.length_eq
  simp only [length_append] at total
  constructor
  · refine List.Perm.trans ?_ whole.symm
    change (finites (engine.completedAfter step state ++
      (engine.sortByScore (engine.candidates step state)).take engine.width)).Perm _
    have closed := tracks.done_perm followed
    rw [finites_append] at closed ⊢
    have turned := finites_perm (reverse_perm (state.beams.filter Beam.isDone))
    have split := finites_perm (engine.expanded_perm step state)
    rw [finites_append] at split
    rw [completedAfter, finites_append, finites_append, append_assoc, append_assoc]
    refine ((((turned.append taken).append_left _).append_left _).trans ?_).trans (closed.append expanded)
    rw [append_assoc]
    refine List.Perm.append_left _ ?_
    rw [← append_assoc]
    refine (perm_append_comm.append_right _).trans ?_
    rw [append_assoc]
    exact split.append_left _
  · intro beam member
    rcases mem_append.mp member with old | new
    · exact tracks.ended beam old
    · exact (mem_filter.mp new).2
  · intro beam member
    simpa using (mem_filter.mp member).2
  · rw [length_append]
    omega
  · have some := tracks.some
    have more : leaves.length ≤ (leaves.flatMap (engine.allowed step)).length := by
      rw [length_flatMap]
      apply length_le_sum
      intro leaf member
      exact length_pos_iff.mpr (allowed_ne_nil (allowed leaf (tracks.leaf followed member).1))
    rw [length_append]
    omega
  · rw [Bool.or_eq_true, tracks.lost, meets_iff]
    constructor
    · rintro (⟨beam, member, lost⟩ | ⟨leaf, member, masked⟩)
      · rcases mem_append.mp member with completed | inside
        · exact ⟨beam, mem_append_left _ (mem_append_left _ (mem_append_left _ completed)), lost⟩
        · cases done : beam.isDone with
          | true =>
              refine ⟨beam, mem_append_left _ (mem_append_right _ ?_), lost⟩
              exact mem_reverse.mpr (mem_filter.mpr ⟨inside, done⟩)
          | false =>
              have alive : beam ∈ live state := mem_filter.mpr ⟨inside, by rw [done]; rfl⟩
              obtain ⟨child, inside'⟩ := exists_mem_of_ne_nil _ (engine.children_ne_nil step beam)
              have none : finites (engine.children step beam) = [] := finites_children_lost lost
              refine lost_after positive followed allowed candidates (mem_flatMap.mpr ⟨beam, alive, inside'⟩) ?_
              rw [finites, filter_eq_nil_iff] at none
              simpa using none child inside'
      · obtain ⟨alive, finite⟩ := tracks.leaf followed member
        have fewer := engine.allowed_length_le step member
        obtain ⟨child, inside, lost⟩ := lost_child finite (allowed leaf alive) (by omega) masked
        exact lost_after positive followed allowed candidates (mem_flatMap.mpr ⟨leaf, alive, inside⟩) lost
    · rintro ⟨beam, member, lost⟩
      have child (new : beam ∈ engine.expanded step state) : (∃ beam ∈ state.completed ++ state.beams,
          beam.logProb.isFinite = false) ∨ ∃ leaf ∈ leaves, ∃ value ∈ engine.maskedLogits leaf.tokens step,
            value.isFinite = false := by
        obtain ⟨parent, alive, inside⟩ := mem_flatMap.mp new
        cases finite : parent.logProb.isFinite with
        | false => exact Or.inl ⟨parent, mem_append_right _ (mem_of_mem_filter alive), finite⟩
        | true =>
            right
            refine ⟨parent, (tracks.live_perm followed).mem_iff.mp (mem_filter.mpr ⟨alive, finite⟩), ?_⟩
            obtain ⟨⟨token, logProb⟩, listed, rfl⟩ := mem_map.mp inside
            have entry := (@StableSort.mem_sort _ _ _ _ engine.sorting).mp (mem_of_mem_take listed)
            obtain ⟨_, i, value, here, _, same⟩ := engine.indexed_isFinite parent.tokens step (allowed parent alive) entry
            have sum := LogProb.isFinite_add parent.logProb logProb
            change (parent.logProb.add logProb).isFinite = false at lost
            rw [finite, Bool.true_and, lost] at sum
            exact ⟨value, mem_of_getElem? here, same.symm.trans sum.symm⟩
      rcases mem_append.mp member with completed | inside
      · rcases mem_completedAfter completed with old | ⟨new, _⟩ | ⟨before, _⟩
        · exact Or.inl ⟨beam, mem_append_left _ old, lost⟩
        · exact child new
        · exact Or.inl ⟨beam, mem_append_right _ before, lost⟩
      · exact child (mem_pruned inside).1
  · intro either
    rcases Bool.or_eq_true _ _ |>.mp either with old | new
    · exact tracks.varied old
    · obtain ⟨leaf, member, masked⟩ := meets_iff.mp new
      exact ⟨leaf.tokens, step, two_logits (allowed leaf (tracks.leaf followed member).1) masked⟩

omit [IsStrictOrderedRing K] in
/-- An exhaustive search without leaves finds nothing more. -/
theorem ample_nil (few : finished.length < engine.width) : engine.Ample remaining step met finished [] ↔ met = false := by
  induction remaining generalizing step met with
  | zero => exact Iff.rfl
  | succ remaining ih =>
      have none : engine.meets step ([] : List (Beam K)) = false := rfl
      rw [Ample]
      simp only [flatMap_nil, filter_nil, append_nil, length_nil, Nat.add_zero, none, Bool.or_false]
      rw [or_iff_right (by omega)]
      split
      · exact Iff.rfl
      · exact ih

/-- All beams are finite, or there are as many finite ones as the width. -/
def Clean (engine : BeamSearchEngine K) (state : SearchState K) : Prop :=
  engine.width ≤ kept state ∨ ∀ beam ∈ state.completed ++ state.beams, beam.logProb.isFinite = true

/-- The logits of different sequences have different lengths. -/
def Varied (engine : BeamSearchEngine K) : Prop :=
  engine.config.earlyStopping = true ∧ (∃ tokens step, 2 ≤ (engine.getLogits tokens step).values.length) ∧
    ∃ tokens step, (engine.getLogits tokens step).values.length = 1

omit [IsStrictOrderedRing K] in
theorem Tracks.clean_iff (tracks : engine.Tracks state met finished leaves) : engine.Clean state ↔ met = false := by
  have size := tracks.same.length_eq
  rw [length_append] at size
  have few := tracks.few
  rw [Clean, or_iff_right (by rw [kept]; omega), ← Bool.not_eq_true, tracks.lost]
  constructor
  · rintro all ⟨beam, member, lost⟩
    rw [all beam member] at lost
    cases lost
  · intro none beam member
    by_contra lost
    exact none ⟨beam, member, by simpa using lost⟩

section Stuck

variable (positive : 0 < engine.config.noRepeatNgramSize) (followed : engine.Followed prompt state)
  (allowed : ∀ beam ∈ live state, engine.Allowed step beam) (tracks : engine.Tracks state met finished leaves)
  (few : finished.length + (leaves.flatMap (engine.allowed step)).length < engine.width)
  (remains : ¬(live state).isEmpty = true) (none : engine.candidates step state = [])

omit [IsStrictOrderedRing K] in
include none in
theorem stuck_finishes (member : child ∈ engine.expanded step state) : engine.finishes child = true := by
  by_contra open'
  have candidate : child ∈ engine.candidates step state := mem_filter.mpr ⟨member, by simpa using open'⟩
  rw [none] at candidate
  cases candidate

omit [IsStrictOrderedRing K] in
include remains none in
theorem stuck_early : engine.config.earlyStopping = true := by
  obtain ⟨beam, inside⟩ := exists_mem_of_ne_nil (live state) fun none => remains (List.isEmpty_iff.mpr none)
  obtain ⟨child, member⟩ := exists_mem_of_ne_nil _ (engine.children_ne_nil step beam)
  exact (Bool.and_eq_true_iff.mp (stuck_finishes none (mem_flatMap.mpr ⟨beam, inside, member⟩))).1

include positive followed allowed tracks few remains none

/-- With all children done, the exhaustive search is cut. -/
theorem stuck_outscored : engine.outscored ⟨(leaves.flatMap (engine.allowed step)).filter fun child => !child.isDone,
    finished ++ (leaves.flatMap (engine.allowed step)).filter Beam.isDone, step + 1⟩ = true := by
  have next := tracks.next positive followed allowed few
  have expanded := tracks.expanded_perm followed allowed (by omega)
  have empty : ((leaves.flatMap (engine.allowed step)).filter fun child => !child.isDone) = [] := by
    rw [filter_eq_nil_iff]
    intro child member
    have inside := mem_of_mem_filter (expanded.mem_iff.mpr member)
    have done := (Bool.and_eq_true_iff.mp (stuck_finishes none inside)).2
    simp [done]
  have some := next.some
  rw [empty, length_nil, Nat.add_zero] at some
  rw [empty, outscored, stuck_early remains none, Bool.true_and, Bool.and_eq_true]
  constructor
  · simpa using length_pos_iff.mp some
  · obtain ⟨number, _⟩ := LogProb.fold_max_spec
      ((finished ++ (leaves.flatMap (engine.allowed step)).filter Beam.isDone).map engine.score) .negInfinity (by rintro ⟨⟩)
    change (engine.bestScore (finished ++ (leaves.flatMap (engine.allowed step)).filter Beam.isDone)).atLeast
      .negInfinity = true
    change engine.bestScore (finished ++ (leaves.flatMap (engine.allowed step)).filter Beam.isDone) ≠ .nan at number
    cases best : engine.bestScore (finished ++ (leaves.flatMap (engine.allowed step)).filter Beam.isDone) with
    | finite => rfl
    | negInfinity => rfl
    | nan => exact absurd best number

/-- With all children done, the gathered parents are finite if nothing was masked. -/
theorem stuck_clean : ((met || engine.meets step leaves) = false →
    engine.Clean ⟨live state, engine.completedAfter step state, step + 1⟩) ∧
      (engine.Clean ⟨live state, engine.completedAfter step state, step + 1⟩ →
        (met || engine.meets step leaves) = false ∨ engine.Varied) := by
  have next := tracks.next positive followed allowed few
  constructor
  · intro never
    right
    have before : met = false := (Bool.or_eq_false_iff.mp never).1
    intro beam member
    by_contra lost
    rw [Bool.not_eq_true] at lost
    rcases mem_append.mp member with completed | inside
    · have contrary := next.lost.mpr ⟨beam, mem_append_left _ completed, lost⟩
      rw [never] at contrary
      cases contrary
    · have contrary := tracks.lost.mpr ⟨beam, mem_append_right _ (mem_of_mem_filter inside), lost⟩
      rw [before] at contrary
      cases contrary
  · intro _
    cases masked : (met || engine.meets step leaves) with
    | false => exact Or.inl rfl
    | true =>
        right
        refine ⟨stuck_early remains none, next.varied masked, ?_⟩
        obtain ⟨beam, inside⟩ := exists_mem_of_ne_nil (live state) fun none => remains (List.isEmpty_iff.mpr none)
        refine ⟨beam.tokens, step, ?_⟩
        have some := length_pos_iff.mpr (engine.getLogits beam.tokens step).nonempty
        by_contra other
        have wide : 2 ≤ engine.width := by
          have least := tracks.some
          have most := tracks.few
          omega
        obtain ⟨child, member, open'⟩ : ∃ child ∈ engine.children step beam, child.isDone = false :=
          exists_open_child wide (Or.inr (by omega))
        have done := (Bool.and_eq_true_iff.mp (stuck_finishes none (mem_flatMap.mpr ⟨beam, inside, member⟩))).2
        rw [open'] at done
        cases done

end Stuck

/-- The search stops clean if the exhaustive one is ample, and only then if the logits keep their length. -/
theorem loop_clean (positive : 0 < engine.config.noRepeatNgramSize) (fed : engine.Fed prompt)
    (reached : engine.Reached prompt step state) (bound : step + remaining = engine.config.maxTokens)
    (followed : engine.Followed prompt state) (tracks : engine.Tracks state met finished leaves) :
    (engine.Ample remaining step met finished leaves → engine.Clean (engine.loop remaining step state)) ∧
      (engine.Clean (engine.loop remaining step state) →
        engine.Ample remaining step met finished leaves ∨ engine.Varied) := by
  induction remaining generalizing step state met finished leaves with
  | zero => exact ⟨tracks.clean_iff.mpr, fun clean => Or.inl (tracks.clean_iff.mp clean)⟩
  | succ remaining ih =>
      have within : step < engine.config.maxTokens := by omega
      have allowed := fed step state reached within
      have going := tracks.live_perm followed
      have next := reached.step within
      have few := tracks.few
      rw [loop]
      rw [round_eq] at next ⊢
      by_cases none : (live state).isEmpty = true
      · -- without a live beam there is no leaf
        have empty : leaves = [] := by
          rw [List.isEmpty_iff.mp none] at going
          exact going.symm.eq_nil
        rw [if_pos none, empty, ample_nil (by omega)]
        have still : engine.Tracks ({ state with steps := step } : SearchState K) met finished leaves :=
          ⟨tracks.same, tracks.ended, tracks.going, tracks.few, tracks.some, tracks.lost, tracks.varied⟩
        exact ⟨still.clean_iff.mpr, fun clean => Or.inl (still.clean_iff.mp clean)⟩
      · rw [if_neg none] at next ⊢
        have closed := (tracks.done_perm followed).length_eq
        have expanded := length_finites_expanded allowed
        rw [finites_append, length_append] at closed
        by_cases enough : engine.width ≤ finished.length + (leaves.flatMap (engine.allowed step)).length
        · -- the exhaustive search finds enough sequences in this step, and so does the search
          have parts := (filter_append_perm Beam.isDone (leaves.flatMap (engine.allowed step))).length_eq
          rw [length_append] at parts
          have ample : engine.Ample (remaining + 1) step met finished leaves := by
            rw [Ample]
            left
            rw [length_append]
            omega
          have bounded := min_sum_le engine.width (fun beam => (engine.allowed step beam).length) (finites (live state))
          have same : ((finites (live state)).map fun beam => (engine.allowed step beam).length).sum =
              (leaves.flatMap (engine.allowed step)).length := by
            rw [length_flatMap]
            exact (going.map _).sum_eq
          have clean : engine.Clean (engine.loop (remaining + 1) step state) := by
            left
            rw [loop, round_eq, if_neg none]
            by_cases stuck : (engine.candidates step state).isEmpty = true
            · have size := kept_stuck (List.isEmpty_iff.mp stuck) (step + 1)
              have saturated : engine.width ≤ kept ⟨live state, engine.completedAfter step state, step + 1⟩ := by omega
              rw [if_pos stuck]
              exact saturated
            · have size := kept_pruned positive followed allowed
              have saturated : engine.width ≤ kept (engine.pruned step state) := by omega
              rw [if_neg stuck] at next ⊢
              dsimp only at next ⊢
              split
              case isTrue goes =>
                exact loop_saturated positive fed (next goes) (by omega) (followed.pruned positive allowed) saturated
              case isFalse => exact saturated
          rw [loop, round_eq, if_neg none] at clean
          exact ⟨fun _ => clean, fun _ => Or.inl ample⟩
        · have tracks' := tracks.next positive followed allowed (Nat.lt_of_not_le enough)
          have followed' := followed.pruned positive allowed
          have parts := (filter_append_perm Beam.isDone (leaves.flatMap (engine.allowed step))).length_eq
          rw [length_append] at parts
          rw [Ample]
          rw [or_iff_right (by rw [length_append]; omega)]
          by_cases stuck : (engine.candidates step state).isEmpty = true
          · have stop := stuck_outscored positive followed allowed tracks (Nat.lt_of_not_le enough) none
              (List.isEmpty_iff.mp stuck)
            have clean := stuck_clean positive followed allowed tracks (Nat.lt_of_not_le enough) none
              (List.isEmpty_iff.mp stuck)
            rw [if_pos stuck, stop, if_pos rfl]
            exact clean
          · rw [if_neg stuck] at next ⊢
            have cut := tracks'.outscored_eq followed' (step + 1)
            rw [← cut]
            dsimp only at next ⊢
            cases outscored : engine.outscored (engine.pruned step state) with
            | true => exact ⟨tracks'.clean_iff.mpr, fun clean => Or.inl (tracks'.clean_iff.mp clean)⟩
            | false =>
                rw [outscored] at next
                exact ih (next rfl) (by omega) followed' tracks'

end Exhaustive

section Returned

/-- No returned sequence has an n-gram that ends in its generated part and occurred earlier. -/
def RepeatFree (engine : BeamSearchEngine K) (prompt : List UInt32) : Prop :=
  ∀ tokens ∈ (engine.search prompt).sequences, engine.Fresh prompt tokens

/-- The search has one beam, or the exhaustive one is ample. -/
def Enough (engine : BeamSearchEngine K) (prompt : List UInt32) : Prop :=
  engine.width = 1 ∨ engine.Ample engine.config.maxTokens 0 false [] [⟨prompt, .finite 0, false⟩]

/-- The returned beams are finite exactly if the search stops clean. -/
theorem repeatFree_iff_clean (positive : 0 < engine.config.noRepeatNgramSize) (fed : engine.Fed prompt) :
    engine.RepeatFree prompt ↔ engine.Clean (engine.stopped prompt) := by
  have followed : engine.Followed prompt (engine.stopped prompt) :=
    loop_followed positive fed .start (Nat.zero_add _) (engine.followed_start prompt)
  have traced : ∀ beam ∈ engine.hypotheses prompt, engine.Traced prompt beam := fun beam member =>
    followed.traced beam ((@StableSort.mem_sort _ _ _ _ engine.sorting).mp (mem_of_mem_take member))
  have finite : engine.RepeatFree prompt ↔ ∀ beam ∈ engine.hypotheses prompt, beam.logProb.isFinite = true := by
    constructor
    · intro free beam member
      exact (traced beam member).fresh.mpr (free _ (mem_map_of_mem member))
    · intro all tokens member
      obtain ⟨beam, inside, rfl⟩ := mem_map.mp member
      exact (traced beam inside).fresh.mp (all beam inside)
  have taken : (finites (engine.hypotheses prompt)).length = min engine.width (kept (engine.stopped prompt)) :=
    length_finites_take followed.traced engine.width
  have size : (engine.hypotheses prompt).length =
      min engine.width ((engine.stopped prompt).completed ++ (engine.stopped prompt).beams).length := by
    rw [hypotheses, gathered, length_take, sortByScore, (engine.sorting.perm _ _).length_eq]
  have most : kept (engine.stopped prompt) ≤
      ((engine.stopped prompt).completed ++ (engine.stopped prompt).beams).length := length_filter_le _ _
  have all : (∀ beam ∈ (engine.stopped prompt).completed ++ (engine.stopped prompt).beams,
      beam.logProb.isFinite = true) ↔ kept (engine.stopped prompt) =
        ((engine.stopped prompt).completed ++ (engine.stopped prompt).beams).length := by
    rw [kept, finites, length_filter_eq_length_iff]
  rw [finite, ← length_filter_eq_length_iff, Clean, all]
  change (finites (engine.hypotheses prompt)).length = _ ↔ _
  omega

/-- A search repeats no n-gram if the exhaustive one is ample, and only then if the logits keep their length. -/
theorem repeatFree_iff_enough (positive : 0 < engine.config.noRepeatNgramSize) (fed : engine.Fed prompt) :
    (engine.Enough prompt → engine.RepeatFree prompt) ∧ (engine.config.earlyStopping = false ∨
      (∃ vocabSize, ∀ tokens step, (engine.getLogits tokens step).values.length = vocabSize) →
        (engine.RepeatFree prompt ↔ engine.Enough prompt)) := by
  have constant (contract : engine.config.earlyStopping = false ∨
      ∃ vocabSize, ∀ tokens step, (engine.getLogits tokens step).values.length = vocabSize) : ¬engine.Varied := by
    rintro ⟨early, ⟨tokens, step, two⟩, other, step', one⟩
    rcases contract with late | ⟨vocabSize, size⟩
    · rw [early] at late
      cases late
    · rw [size] at two one
      omega
  rw [repeatFree_iff_clean positive fed]
  by_cases single : engine.width = 1
  · have clean : engine.Clean (engine.stopped prompt) :=
      Or.inl (loop_saturated positive fed .start (Nat.zero_add _) (engine.followed_start prompt) (Nat.le_of_eq single))
    exact ⟨fun _ => clean, fun _ => ⟨fun _ => Or.inl single, fun _ => clean⟩⟩
  · have wide : 1 < engine.width := by
      have positive := engine.width_pos
      omega
    have tracks : engine.Tracks (start prompt) false [] [⟨prompt, .finite 0, false⟩] := by
      refine ⟨List.Perm.refl _, nofun, ?_, wide, Nat.one_pos, ?_, nofun⟩
      · intro beam member
        rw [mem_singleton.mp member]
      · refine iff_of_false Bool.false_ne_true ?_
        rintro ⟨beam, member, lost⟩
        rw [mem_singleton.mp member] at lost
        cases lost
    obtain ⟨sound, complete⟩ := loop_clean positive fed .start (Nat.zero_add _) (engine.followed_start prompt) tracks
    have either : engine.Enough prompt ↔
        engine.Ample engine.config.maxTokens 0 false [] [⟨prompt, .finite 0, false⟩] := or_iff_right single
    rw [either]
    exact ⟨sound, fun contract => ⟨fun clean => (complete clean).resolve_right (constant contract), sound⟩⟩

/-- Exactly the tokens are masked that would repeat an n-gram, and a search that is always fed repeats none if the
exhaustive one is ample, and only then if it stops late or the logits keep their length. -/
theorem noRepeatNgram_exact (engine : BeamSearchEngine K) (prompt : List UInt32) :
    (∀ (Logit : Type) (negInfinity : Logit) (logits : List Logit) (tokens : List UInt32) (ngramSize : Nat),
      0 < ngramSize → ∀ i < logits.length, ((∃ token : UInt32, token.toNat = i ∧ Repeats ngramSize tokens token) →
          (applyNoRepeatNgram negInfinity logits tokens ngramSize)[i]? = some negInfinity) ∧
        ((¬∃ token : UInt32, token.toNat = i ∧ Repeats ngramSize tokens token) →
          (applyNoRepeatNgram negInfinity logits tokens ngramSize)[i]? = logits[i]?)) ∧
    (0 < engine.config.noRepeatNgramSize → engine.Fed prompt →
      (engine.Enough prompt → engine.RepeatFree prompt) ∧ (engine.config.earlyStopping = false ∨
        (∃ vocabSize, ∀ tokens step, (engine.getLogits tokens step).values.length = vocabSize) →
          (engine.RepeatFree prompt ↔ engine.Enough prompt))) := by
  refine ⟨fun Logit negInfinity logits tokens ngramSize positive i inside => ?_, repeatFree_iff_enough⟩
  rw [applyNoRepeatNgram_getElem? positive, getElem?_eq_getElem inside, Option.map_some]
  exact ⟨fun repeats => congrArg some (if_pos repeats), fun new => congrArg some (if_neg new)⟩

end Returned

section Narrow

/-- A search with two beams over two tokens, of which the prompt has one. -/
def narrowEngine : BeamSearchEngine Rat where
  config := ⟨2, 1, 1, 1, false, 7⟩
  real := rationalFunctions
  sorting := .merging
  getLogits _ _ := ⟨[0, 0], cons_ne_nil _ _, by decide⟩

theorem narrow_fed : narrowEngine.Fed [0] := by
  intro step state reached within beam member
  cases reached with
  | start =>
      have first : beam = ⟨[0], .finite 0, false⟩ := mem_singleton.mp (mem_of_mem_filter member)
      rw [first]
      exact ⟨0, by decide⟩
  | step reached earlier goes => exact absurd within (Nat.not_lt_of_le (Nat.le_add_left 1 _))

/-- The masked token is returned, too. -/
theorem narrow_repeats : 0 < narrowEngine.config.noRepeatNgramSize ∧ narrowEngine.Fed [0] ∧
    ¬narrowEngine.RepeatFree [0] := by
  refine ⟨Nat.one_pos, narrow_fed, ?_⟩
  rw [(repeatFree_iff_enough Nat.one_pos narrow_fed).2 (Or.inl rfl)]
  rintro (one | ample)
  · exact absurd one (by decide)
  · change narrowEngine.Ample 1 0 false [] [⟨[0], .finite 0, false⟩] at ample
    rw [Ample] at ample
    rcases ample with enough | never
    · exact absurd enough (by decide)
    · rw [if_neg (by decide)] at never
      change narrowEngine.meets 0 [⟨[0], .finite 0, false⟩] = false at never
      exact absurd never (by decide)

/-- The search over two tokens is in question. -/
theorem narrow_exact : narrowEngine.RepeatFree [0] ↔ narrowEngine.Enough [0] :=
  ((noRepeatNgram_exact narrowEngine [0]).2 Nat.one_pos narrow_fed).2 (Or.inl rfl)

end Narrow

end BeamSearchEngine

end Pictor
