import Pictor.Construction.Decoding.DraftAndVerify
import Pictor.Library.Unrolling

namespace Pictor.DraftAndVerify
open List

section Controller

/-- The casts of the bounds are in the order of the bounds. -/
def AdaptiveLookaheadConfig.CastsOrdered (config : AdaptiveLookaheadConfig) : Prop :=
  asI64 config.min ≤ asI64 config.max

instance (config : AdaptiveLookaheadConfig) : Decidable config.CastsOrdered := inferInstanceAs (Decidable (_ ≤ _))

/-- The proposed number lies in the window of the configuration. -/
structure AdaptiveLookahead.Within {Ewma : Type} (adaptive : AdaptiveLookahead Ewma) : Prop where
  validates : adaptive.config.Validates
  fits : adaptive.config.max < 2 ^ 64
  least : adaptive.config.min ≤ adaptive.current
  most : adaptive.current ≤ adaptive.config.max

variable {Ewma : Type} {averages : Averages Ewma} {adaptive adaptive' : AdaptiveLookahead Ewma} {proposed accepted : Nat}

theorem clamp_some {low high value clamped : Int} (done : clamp low high value = some clamped) :
    low ≤ clamped ∧ clamped ≤ high := by
  rw [clamp] at done
  split at done
  case isTrue =>
    cases done
    split
    · omega
    · split <;> omega
  case isFalse => cases done

/-- A signed number between the casts of two bounds is the cast of a size between them. -/
theorem asUsize_within {low high : Nat} {number : Int} (ordered : low ≤ high) (fits : high < 2 ^ 64)
    (least : asI64 low ≤ number) (most : number ≤ asI64 high) : low ≤ asUsize number ∧ asUsize number ≤ high := by
  rw [asI64] at least most
  rw [asUsize]
  split at least <;> split at most <;> split <;> omega

/-- An observation counts the cooldown down, or it takes a number between the bounds. -/
theorem AdaptiveLookahead.observeStep_cases (done : adaptive.observeStep averages proposed accepted = some adaptive') :
    adaptive'.config = adaptive.config ∧ (adaptive'.current = adaptive.current ∨
      ∃ number, asI64 adaptive.config.min ≤ number ∧ number ≤ asI64 adaptive.config.max ∧
        adaptive'.current = asUsize number) := by
  rw [AdaptiveLookahead.observeStep] at done
  dsimp only at done
  by_cases cooling : 0 < adaptive.cooldownLeft
  · rw [if_pos cooling] at done
    cases done
    exact ⟨rfl, .inl rfl⟩
  · rw [if_neg cooling] at done
    obtain ⟨target, taken, rfl⟩ := Option.map_eq_some_iff.mp done
    obtain ⟨clamped, kept, rfl⟩ := Option.map_eq_some_iff.mp taken
    obtain ⟨least, most⟩ := clamp_some kept
    exact ⟨rfl, .inr ⟨clamped, least, most, rfl⟩⟩

/-- An observation keeps the proposed number in its window. -/
theorem AdaptiveLookahead.Within.observeStep (within : adaptive.Within)
    (done : adaptive.observeStep averages proposed accepted = some adaptive') : adaptive'.Within := by
  obtain ⟨same, rest⟩ := AdaptiveLookahead.observeStep_cases done
  refine ⟨same ▸ within.validates, same ▸ within.fits, ?_, ?_⟩
  all_goals
    rw [same]
    rcases rest with kept | ⟨number, least, most, taken⟩
  · exact kept ▸ within.least
  · exact taken ▸ (asUsize_within within.validates.2.1 within.fits least most).1
  · exact kept ▸ within.most
  · exact taken ▸ (asUsize_within within.validates.2.1 within.fits least most).2

variable (averages proposed accepted) in
/-- An observation within the cooldown counts it down. -/
theorem AdaptiveLookahead.observeStep_cools (cooling : 0 < adaptive.cooldownLeft) :
    ∃ next, adaptive.observeStep averages proposed accepted = some next ∧
      next.cooldownLeft = adaptive.cooldownLeft - 1 := by
  rw [AdaptiveLookahead.observeStep]
  dsimp only
  rw [if_pos cooling]
  exact ⟨_, rfl, rfl⟩

variable (averages proposed accepted) in
/-- An observation behind the cooldown stops the program exactly if the casts are out of order. -/
theorem AdaptiveLookahead.observeStep_due (due : adaptive.cooldownLeft = 0) :
    (∃ next, adaptive.observeStep averages proposed accepted = some next) ↔ adaptive.config.CastsOrdered := by
  rw [AdaptiveLookahead.observeStep]
  dsimp only
  rw [if_neg (by omega), computeTarget, clamp]
  dsimp only
  rw [AdaptiveLookaheadConfig.CastsOrdered]
  by_cases ordered : asI64 adaptive.config.min ≤ asI64 adaptive.config.max
  · rw [if_pos ordered]
    exact ⟨fun _ => ordered, fun _ => ⟨_, rfl⟩⟩
  · rw [if_neg ordered]
    refine ⟨?_, fun wrong => absurd wrong ordered⟩
    rintro ⟨_, wrong⟩
    cases wrong

end Controller

section Rounds

open SpeculativeDecoder

variable {Ewma Failure : Type} {averages : Averages Ewma} {engine : DraftEngine Failure} {shouldAccept : Decisions}
  {decoder decoder' : SpeculativeDecoder Ewma} {context promptTokens output : List UInt32} {targetLogits maxTokens : Nat}
  {stepResult : SpeculativeStep}

/-- The engine as a function that extends a context or stops. -/
def extension (engine : DraftEngine Failure) (context : List UInt32) : Except Empty (Option UInt32) :=
  .ok (generated engine context)

theorem extends_front {first second : List UInt32} (extended : Extends (extension engine) context (first ++ second)) :
    Extends (extension engine) context first := by
  induction first generalizing context with
  | nil => trivial
  | cons token first ih => exact ⟨extended.1, ih extended.2⟩

theorem draft_extends (k : Nat) (context : List UInt32) : Extends (extension engine) context (draft engine k context) := by
  induction k generalizing context with
  | zero => trivial
  | succ k ih =>
      rw [draft]
      cases found : generated engine context with
      | none => trivial
      | some token => exact ⟨congrArg Except.ok found, ih _⟩

/-- A verification keeps a start of the draft. -/
theorem verify_start (accepts : Nat → UInt32 → Bool) (i : Nat) (draftTokens : List UInt32) :
    ∃ rest, draftTokens = verify targetLogits accepts i draftTokens ++ rest := by
  induction draftTokens generalizing i with
  | nil => exact ⟨[], rfl⟩
  | cons token draftTokens ih =>
      rw [verify]
      split
      · exact ⟨_, rfl⟩
      · split
        · obtain ⟨rest, same⟩ := ih (i + 1)
          exact ⟨rest, congrArg (token :: ·) same⟩
        · exact ⟨_, rfl⟩

/-- Tokens that extend a context are no more than its unrolling. -/
theorem length_le_unroll {budget : Nat} {full done : List UInt32} (unrolled : unroll (extension engine) budget context = .ok full)
    (extended : Extends (extension engine) context done) (inside : done.length ≤ budget) : done.length ≤ full.length := by
  induction done generalizing budget full context with
  | nil => exact Nat.zero_le _
  | cons token done ih =>
      cases budget with
      | zero => exact absurd inside (Nat.not_succ_le_zero _)
      | succ budget =>
          rw [unroll, extended.1] at unrolled
          dsimp only at unrolled
          cases rest : unroll (extension engine) budget (context ++ [token]) with
          | error failure => cases failure
          | ok later =>
              rw [rest] at unrolled
              cases unrolled
              exact Nat.succ_le_succ (ih rest extended.2 (Nat.le_of_succ_le_succ inside))

/-- The accepted tokens are no more than the proposed ones, and the lookahead lies in the window of its
controller. -/
structure SpeculativeDecoder.Valid (decoder : SpeculativeDecoder Ewma) : Prop where
  totals : decoder.totalAcceptedTokens ≤ decoder.totalDraftTokens
  within : ∀ adaptive, decoder.adaptive = some adaptive → adaptive.Within ∧
    adaptive.config.min ≤ decoder.lookahead ∧ decoder.lookahead ≤ adaptive.config.max

/-- What a step returns, and how it changes the controller. -/
theorem step_some (ran : decoder.step averages engine shouldAccept context targetLogits = some (decoder', stepResult)) :
    stepResult.acceptedTokens = verify targetLogits (shouldAccept decoder.totalSteps context) 0
        (draft engine decoder.lookahead context) ∧
      decoder'.totalDraftTokens = decoder.totalDraftTokens + (draft engine decoder.lookahead context).length ∧
      decoder'.totalAcceptedTokens = decoder.totalAcceptedTokens + stepResult.acceptedTokens.length ∧
      (decoder.adaptive = none ∧ decoder'.adaptive = none ∨
        ∃ adaptive adaptive', decoder.adaptive = some adaptive ∧ decoder'.adaptive = some adaptive' ∧
          decoder'.lookahead = adaptive'.current ∧ adaptive.observeStep averages
            (draft engine decoder.lookahead context).length stepResult.acceptedTokens.length = some adaptive') := by
  rw [SpeculativeDecoder.step] at ran
  cases controller : decoder.adaptive with
  | none =>
      rw [controller] at ran
      cases ran
      exact ⟨rfl, rfl, rfl, .inl ⟨rfl, rfl⟩⟩
  | some adaptive =>
      rw [controller] at ran
      dsimp only at ran
      obtain ⟨last, rest, same⟩ := Option.bind_eq_some_iff.mp ran
      cases same
      obtain ⟨adaptive', observed, rfl⟩ := Option.map_eq_some_iff.mp rest
      exact ⟨rfl, rfl, rfl, .inr ⟨adaptive, adaptive', rfl, rfl, rfl, observed⟩⟩

theorem SpeculativeDecoder.Valid.step (valid : decoder.Valid)
    (ran : decoder.step averages engine shouldAccept context targetLogits = some (decoder', stepResult)) :
    decoder'.Valid := by
  obtain ⟨accepted, drafted, kept, controller⟩ := step_some ran
  obtain ⟨rest, same⟩ := @verify_start targetLogits (shouldAccept decoder.totalSteps context) 0
    (draft engine decoder.lookahead context)
  rw [← accepted] at same
  have counted := congrArg List.length same
  rw [length_append] at counted
  have totals := valid.totals
  refine ⟨by omega, fun adaptive' found => ?_⟩
  rcases controller with ⟨_, none⟩ | ⟨before, after, here, there, taken, observed⟩
  · rw [none] at found
    cases found
  · rw [there] at found
    cases found
    have within := (valid.within before here).1.observeStep observed
    exact ⟨within, taken ▸ within.least, taken ▸ within.most⟩

/-- The controller survives as many further observations. -/
def SpeculativeDecoder.Lasts (decoder : SpeculativeDecoder Ewma) (rounds : Nat) : Prop :=
  ∀ adaptive, decoder.adaptive = some adaptive → adaptive.config.CastsOrdered ∨ rounds ≤ adaptive.cooldownLeft

variable (averages engine shouldAccept) in
/-- A decoder that lasts takes a step, and lasts one observation less. -/
theorem SpeculativeDecoder.Lasts.step {rounds : Nat} (lasts : decoder.Lasts (rounds + 1)) (context : List UInt32)
    (targetLogits : Nat) :
    ∃ decoder' stepResult, decoder.step averages engine shouldAccept context targetLogits = some (decoder', stepResult) ∧
      decoder'.Lasts rounds := by
  rw [SpeculativeDecoder.step]
  cases controller : decoder.adaptive with
  | none =>
      exact ⟨_, _, rfl, nofun⟩
  | some adaptive =>
      dsimp only
      generalize (draft engine decoder.lookahead context).length = proposed
      generalize (verify targetLogits (shouldAccept decoder.totalSteps context) 0
        (draft engine decoder.lookahead context)).length = accepted
      have survives : ∃ next, adaptive.observeStep averages proposed accepted = some next ∧
          (adaptive.config.CastsOrdered ∨ rounds ≤ next.cooldownLeft) := by
        by_cases cooling : 0 < adaptive.cooldownLeft
        · obtain ⟨next, ran, left⟩ := AdaptiveLookahead.observeStep_cools averages proposed accepted cooling
          refine ⟨next, ran, (lasts adaptive controller).imp_right fun enough => ?_⟩
          omega
        · have ordered := (lasts adaptive controller).resolve_right (by omega)
          obtain ⟨next, ran⟩ := (AdaptiveLookahead.observeStep_due averages proposed accepted (by omega)).mpr ordered
          exact ⟨next, ran, .inl ordered⟩
      obtain ⟨next, ran, rest⟩ := survives
      rw [ran]
      refine ⟨_, _, rfl, fun adaptive' found => ?_⟩
      cases found
      rwa [AdaptiveLookahead.observeStep_cases ran |>.1]

variable (engine) in
/-- A round ends where the engine stops, or it adds tokens that extend the context. -/
theorem roundTokens_cases (context acceptedTokens : List UInt32) (remaining : Nat) :
    (roundTokens engine context acceptedTokens remaining = none ∧ extension engine context = .ok none) ∨
      ∃ tokens, roundTokens engine context acceptedTokens remaining = some tokens ∧ (0 < remaining → tokens ≠ []) ∧
        (0 < remaining → tokens.length ≤ remaining) ∧
        (Extends (extension engine) context acceptedTokens → Extends (extension engine) context tokens) := by
  cases acceptedTokens with
  | nil =>
      rw [roundTokens]
      cases answer : generated engine context with
      | none => exact .inl ⟨rfl, congrArg Except.ok answer⟩
      | some token =>
          exact .inr ⟨[token], rfl, fun _ => cons_ne_nil _ _, id, fun _ => ⟨congrArg Except.ok answer, trivial⟩⟩
  | cons token tokens =>
      refine .inr ⟨(token :: tokens).take (min (token :: tokens).length remaining), rfl, fun positive none => ?_,
        fun _ => ?_, fun extended => ?_⟩
      · have counted := congrArg List.length none
        rw [length_take, length_cons, length_nil] at counted
        omega
      · rw [length_take]
        omega
      · rw [← take_append_drop (min (token :: tokens).length remaining) (token :: tokens)] at extended
        exact extends_front extended

/-- Each round keeps the tokens the start of the unrolling, and one observation is left for each token. -/
theorem generateLoop_exact {fuel rounds : Nat} {full : List UInt32}
    (unrolled : unroll (extension engine) maxTokens promptTokens = .ok full)
    (bound : min maxTokens (full.length + 1) ≤ output.length + rounds) (lasts : decoder.Lasts rounds)
    (valid : decoder.Valid) (extended : Extends (extension engine) promptTokens output)
    (inside : output.length ≤ maxTokens) (enough : maxTokens - output.length < fuel) :
    ∃ last, generateLoop averages engine shouldAccept promptTokens maxTokens fuel decoder output
      (promptTokens ++ output) = some (full, last) ∧ last.Valid := by
  induction fuel generalizing rounds decoder output with
  | zero => exact absurd enough (Nat.not_lt_zero _)
  | succ fuel ih =>
      rw [generateLoop]
      by_cases open_ : output.length < maxTokens
      case neg =>
        rw [if_neg open_]
        have ended := unroll_eq_ok_iff.mpr ⟨extended, .inl (by omega : output.length = maxTokens)⟩
        obtain rfl := Except.ok.inj (ended.symm.trans unrolled)
        exact ⟨decoder, rfl, valid⟩
      have reached := length_le_unroll unrolled extended inside
      obtain ⟨rounds, rfl⟩ := Nat.exists_eq_succ_of_ne_zero (show rounds ≠ 0 by omega)
      obtain ⟨decoder', stepResult, ran, lasts'⟩ := lasts.step averages engine shouldAccept (promptTokens ++ output)
        (min decoder.lookahead (maxTokens - output.length))
      have valid' := valid.step ran
      obtain ⟨accepted, _⟩ := step_some ran
      rw [if_pos open_]
      dsimp only
      rw [ran, Option.bind_some]
      dsimp only
      rcases roundTokens_cases engine (promptTokens ++ output) stepResult.acceptedTokens (maxTokens - output.length) with
        ⟨none_, stopped⟩ | ⟨tokens, taken, some_, fits, follows⟩
      · rw [none_]
        have ended := unroll_eq_ok_iff.mpr ⟨extended, .inr ⟨open_, stopped⟩⟩
        obtain rfl := Except.ok.inj (ended.symm.trans unrolled)
        exact ⟨decoder', rfl, valid'⟩
      · have drafted : Extends (extension engine) (promptTokens ++ output) stepResult.acceptedTokens := by
          obtain ⟨rest, same⟩ := @verify_start (min decoder.lookahead (maxTokens - output.length))
            (shouldAccept decoder.totalSteps (promptTokens ++ output)) 0
            (draft engine decoder.lookahead (promptTokens ++ output))
          rw [← accepted] at same
          exact extends_front (same ▸ draft_extends decoder.lookahead (promptTokens ++ output))
        have long := length_pos_iff.mpr (some_ (Nat.sub_pos_of_lt open_))
        have within := fits (Nat.sub_pos_of_lt open_)
        have roomy : ¬ promptTokens.length + maxTokens + decoder'.lookahead <
            (promptTokens ++ output ++ tokens).length := by
          rw [length_append, length_append]
          omega
        rw [taken]
        dsimp only
        rw [if_neg roomy, append_assoc]
        exact ih (by rw [length_append]; omega) lasts' valid' (extended.append (follows drafted))
          (by rw [length_append]; omega) (by rw [length_append]; omega)

/-- A verification that rejects everything. -/
def rejects : Decisions := fun _ _ _ _ => false

theorem verify_rejects (i : Nat) (draftTokens : List UInt32) : verify targetLogits (fun _ _ => false) i draftTokens = [] := by
  cases draftTokens with
  | nil => rfl
  | cons token draftTokens =>
      rw [verify]
      split
      · rfl
      · rw [if_neg Bool.false_ne_true]

/-- With crossed casts a run of rejections stops at the end of the cooldown. -/
theorem generateLoop_stops {fuel : Nat} {full : List UInt32} {adaptive : AdaptiveLookahead Ewma}
    (unrolled : unroll (extension engine) maxTokens promptTokens = .ok full)
    (controller : decoder.adaptive = some adaptive) (crossed : ¬ adaptive.config.CastsOrdered)
    (short : output.length + adaptive.cooldownLeft < min maxTokens (full.length + 1))
    (extended : Extends (extension engine) promptTokens output) :
    generateLoop averages engine rejects promptTokens maxTokens fuel decoder output (promptTokens ++ output) = none := by
  induction fuel generalizing decoder output adaptive with
  | zero => rfl
  | succ fuel ih =>
      have open_ : output.length < maxTokens := by omega
      rw [generateLoop, if_pos open_]
      dsimp only
      cases ran : decoder.step averages engine rejects (promptTokens ++ output)
          (min decoder.lookahead (maxTokens - output.length)) with
      | none => rfl
      | some result =>
          obtain ⟨decoder', stepResult⟩ := result
          obtain ⟨accepted, _, _, rest⟩ := step_some ran
          have rejected : stepResult.acceptedTokens = [] := accepted.trans (verify_rejects 0 _)
          obtain ⟨before, after, here, there, _, observed⟩ := rest.resolve_left fun both => by
            rw [controller] at both
            cases both.1
          obtain rfl := Option.some.inj (here.symm.trans controller)
          have cooling : 0 < before.cooldownLeft := by
            by_contra! spent
            exact crossed ((AdaptiveLookahead.observeStep_due averages _ _ (by omega)).mp ⟨after, observed⟩)
          obtain ⟨next, ran', left⟩ := AdaptiveLookahead.observeStep_cools averages
            (draft engine decoder.lookahead (promptTokens ++ output)).length stepResult.acceptedTokens.length cooling
          obtain rfl := Option.some.inj (ran'.symm.trans observed)
          rw [Option.bind_some]
          dsimp only
          rw [rejected, roundTokens]
          cases answer : generated engine (promptTokens ++ output) with
          | none =>
              have stopped : extension engine (promptTokens ++ output) = .ok none := congrArg Except.ok answer
              have ended := unroll_eq_ok_iff.mpr ⟨extended, .inr ⟨open_, stopped⟩⟩
              obtain rfl := Except.ok.inj (ended.symm.trans unrolled)
              omega
          | some token =>
              have roomy : ¬ promptTokens.length + maxTokens + decoder'.lookahead <
                  (promptTokens ++ output ++ [token]).length := by
                rw [length_append, length_append, length_singleton]
                omega
              dsimp only [Option.map_some]
              rw [if_neg roomy, append_assoc]
              refine ih there ((AdaptiveLookahead.observeStep_cases ran').1 ▸ crossed) ?_
                (extended.append ⟨congrArg Except.ok answer, trivial⟩)
              rw [length_append, length_singleton]
              omega

/-- The engine unrolls without a failure. -/
theorem exists_unrolled (engine : DraftEngine Failure) (maxTokens : Nat) (promptTokens : List UInt32) :
    ∃ full, unroll (extension engine) maxTokens promptTokens = .ok full := by
  cases unrolled : unroll (extension engine) maxTokens promptTokens with
  | ok full => exact ⟨full, rfl⟩
  | error failure => cases failure

/-- The decoders that steps can reach. -/
inductive Reached (averages : Averages Ewma) (engine : DraftEngine Failure) : SpeculativeDecoder Ewma → Prop
  | new (lookahead : Nat) : Reached averages engine (.new lookahead)
  | withAdaptive {config : AdaptiveLookaheadConfig} (validates : config.Validates) (fits : config.max < 2 ^ 64) :
      Reached averages engine (.withAdaptive averages config)
  | step {decoder decoder' : SpeculativeDecoder Ewma} {shouldAccept : Decisions} {context : List UInt32}
      {targetLogits : Nat} {stepResult : SpeculativeStep} (reached : Reached averages engine decoder)
      (ran : decoder.step averages engine shouldAccept context targetLogits = some (decoder', stepResult)) :
      Reached averages engine decoder'

theorem Reached.valid (reached : Reached averages engine decoder) : decoder.Valid := by
  induction reached with
  | new => exact ⟨Nat.le_refl _, nofun⟩
  | @withAdaptive config validates fits =>
      refine ⟨Nat.le_refl _, fun adaptive found => ?_⟩
      cases found
      exact ⟨⟨validates, fits, validates.2.2.1, validates.2.2.2⟩, validates.2.2⟩
  | step _ ran ih => exact ih.step ran

end Rounds

open SpeculativeDecoder in
/-- Every reached decoder keeps its totals and its window. Whatever the verification decides, it generates the
unrolling of its engine exactly if the casts of the controller's bounds are in order, or its cooldown
outlasts a round for each token and one for the stop. -/
theorem generateSpeculative_exact_iff {Ewma Failure : Type} (averages : Averages Ewma) (engine : DraftEngine Failure)
    (decoder : SpeculativeDecoder Ewma) (reached : Reached averages engine decoder) (promptTokens : List UInt32)
    (maxTokens : Nat) : decoder.Valid ∧ ∃ full, unroll (extension engine) maxTokens promptTokens = .ok full ∧
      ((∀ shouldAccept, ∃ last, decoder.generateSpeculative averages engine shouldAccept promptTokens maxTokens =
          some (full, last) ∧ last.Valid) ↔ decoder.Lasts (min maxTokens (full.length + 1))) := by
  obtain ⟨full, unrolled⟩ := exists_unrolled engine maxTokens promptTokens
  refine ⟨reached.valid, full, unrolled, fun exact_ adaptive controller => ?_, fun lasts shouldAccept => ?_⟩
  · by_contra! crossed
    obtain ⟨last, ran, _⟩ := exact_ rejects
    have stops := @generateLoop_stops _ _ averages engine decoder promptTokens [] maxTokens (maxTokens + 1) full _ unrolled
      controller
      crossed.1 (by rw [length_nil, Nat.zero_add]; exact crossed.2) trivial
    rw [append_nil] at stops
    rw [generateSpeculative, stops] at ran
    cases ran
  · have exact_ := @generateLoop_exact _ _ averages engine shouldAccept decoder promptTokens [] maxTokens (maxTokens + 1) _
      full unrolled (by rw [length_nil, Nat.zero_add]) lasts reached.valid trivial (Nat.zero_le _)
      (by rw [length_nil]; omega)
    rwa [append_nil] at exact_

/-- The mean is the last number of accepted tokens, and the target is one more. -/
def lastAccepted : Averages Int := ⟨0, fun accepted => accepted, fun accepted _ => accepted, fun mean => mean + 1⟩

/-- An engine that always generates the same token. -/
def sameToken : DraftEngine Empty := fun _ => .ok [7]

theorem generateSpeculative_exact_two : (SpeculativeDecoder.new 4 : SpeculativeDecoder Int).Valid ∧
    ∃ full, unroll (extension sameToken) 2 [1] = .ok full ∧
      ((∀ shouldAccept, ∃ last, (SpeculativeDecoder.new 4).generateSpeculative lastAccepted sameToken
        shouldAccept [1] 2 = some (full, last) ∧ last.Valid) ↔
        (SpeculativeDecoder.new 4 : SpeculativeDecoder Int).Lasts (min 2 (full.length + 1))) :=
  generateSpeculative_exact_iff lastAccepted sameToken (.new 4) (.new 4) [1] 2

/-- A controller without an upper bound stops the first observation behind its cooldown. -/
theorem generateSpeculative_gap : AdaptiveLookaheadConfig.Validates ⟨4, 1, 2 ^ 64 - 1, 0⟩ ∧
    ((SpeculativeDecoder.withAdaptive lastAccepted ⟨4, 1, 2 ^ 64 - 1, 0⟩).generateSpeculative lastAccepted
      sameToken (fun _ _ _ _ => true) [1] 1).isNone := by
  refine ⟨⟨by decide, by decide, by decide, by decide⟩, ?_⟩
  rfl

end Pictor.DraftAndVerify
