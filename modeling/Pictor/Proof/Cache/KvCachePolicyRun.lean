import Pictor.Construction.Cache.KvCachePolicy
import Pictor.Library.Transitions
import Mathlib.Tactic.IntervalCases
import Mathlib.Tactic.Linarith

namespace Pictor.KvCachePolicy
open Transitions KvCacheLevel

inductive Threshold where
  | q8
  | q4

def Threshold.value (config : KvCachePolicyConfig) : Threshold → Rat
  | .q8 => config.q8Threshold
  | .q4 => config.q4Threshold

/-- The level that is chosen from the threshold on. -/
def Threshold.level : Threshold → KvCacheLevel
  | .q8 => .q8
  | .q4 => .q4

/-- A level is above a threshold if it is at least as compact as the one the configuration admits from there on. -/
def Above (config : KvCachePolicyConfig) (threshold : Threshold) (level : KvCacheLevel) : Prop :=
  (clamp config threshold.level).ordinal ≤ level.ordinal

instance (config : KvCachePolicyConfig) (threshold : Threshold) (level : KvCacheLevel) :
    Decidable (Above config threshold level) := inferInstanceAs (Decidable (_ ≤ _))

/-- A policy beside the levels that it had since the last reset, the latest one first. -/
structure Watched where
  policy : KvCachePolicy
  levels : List KvCacheLevel

def watch (state : Watched) : Call → Watched
  | .observe pressure =>
      let policy := state.policy.perform (.observe pressure)
      ⟨policy, policy.currentLevel :: state.levels⟩
  | .reset =>
      let policy := state.policy.perform .reset
      ⟨policy, [policy.currentLevel]⟩

/-- The number of times that a level was followed by a more compact one. -/
def rises : List KvCacheLevel → Nat
  | new :: old :: levels => (if old.ordinal < new.ordinal then 1 else 0) + rises (old :: levels)
  | _ => 0

/-- The number of times that a level was followed by a less compact one. -/
def falls : List KvCacheLevel → Nat
  | new :: old :: levels => (if new.ordinal < old.ordinal then 1 else 0) + falls (old :: levels)
  | _ => 0

/-- What a call has to do with a policy. -/
structure Lawful (state : Watched) (call : Call) : Prop where
  level : state.policy.config.minLevel.ordinal ≤ (watch state call).policy.currentLevel.ordinal ∧
    (watch state call).policy.currentLevel.ordinal ≤ state.policy.config.maxLevel.ordinal
  pressure : 0 ≤ (watch state call).policy.pressureEwma ∧ (watch state call).policy.pressureEwma ≤ 1
  hysteresis : ∀ pressure, call = .observe pressure →
    (state.policy.observe pressure).1 = (watch state call).policy.currentLevel ∧
    ∀ threshold, Above state.policy.config threshold state.policy.currentLevel →
      ¬ Above state.policy.config threshold (watch state call).policy.currentLevel →
      (watch state call).policy.pressureEwma < threshold.value state.policy.config - state.policy.config.hysteresis
  counters : (watch state call).policy.upgrades = rises (watch state call).levels ∧
    (watch state call).policy.downgrades = falls (watch state call).levels

/-- From the fourth level the pressure does not fall between the margin of the second level and the second level, and
from the third level it falls into no margin. -/
def AvoidsMargins (state : Watched) (call : Call) : Prop :=
  ∀ pressure, call = .observe pressure →
    let config := state.policy.config
    let smoothed := state.policy.smooth pressure
    (state.policy.currentLevel = .q4 → config.minLevel = .fp16 →
      smoothed < config.q4Threshold - config.hysteresis → smoothed < config.q8Threshold →
      smoothed < config.q8Threshold - config.hysteresis) ∧
    (state.policy.currentLevel = .fp8 → config.minLevel ≠ .fp8 →
      (smoothed < config.q4Threshold → smoothed < config.q4Threshold - config.hysteresis) ∧
      (config.minLevel = .fp16 → smoothed < config.q8Threshold →
        smoothed < config.q8Threshold - config.hysteresis))

structure Valid (config : KvCachePolicyConfig) : Prop where
  q8 : 0 ≤ config.q8Threshold ∧ config.q8Threshold ≤ 1
  q4 : 0 ≤ config.q4Threshold ∧ config.q4Threshold ≤ 1
  ordered : config.q8Threshold ≤ config.q4Threshold
  margin : 0 ≤ config.hysteresis ∧ config.hysteresis ≤ 1
  alpha : 0 ≤ config.ewmaAlpha ∧ config.ewmaAlpha ≤ 1
  levels : config.minLevel.ordinal ≤ config.maxLevel.ordinal

theorem validate_ok {config : KvCachePolicyConfig} (accepted : config.validate = .ok ()) : Valid config := by
  unfold KvCachePolicyConfig.validate at accepted
  split at accepted
  · cases accepted
  · split at accepted
    · cases accepted
    · split at accepted
      · cases accepted
      · split at accepted
        · cases accepted
        · split at accepted
          · cases accepted
          · split at accepted
            · cases accepted
            · rename_i q8 q4 ordered margin alpha levels
              simp only [KvCachePolicyConfig.contains, decide_eq_true_eq, not_not] at q8 q4 margin alpha
              exact ⟨q8, q4, not_lt.mp ordered, margin, alpha, Nat.le_of_not_lt levels⟩

@[simp] theorem fromOrdinal_ordinal (level : KvCacheLevel) : fromOrdinal level.ordinal = level := by
  cases level <;> rfl

theorem ordinal_le (level : KvCacheLevel) : level.ordinal ≤ 3 := by
  cases level <;> decide

theorem ordinal_fromOrdinal {o : Nat} (small : o ≤ 3) : (fromOrdinal o).ordinal = o := by
  interval_cases o <;> rfl

/-- A clamped level lies between the limits. -/
theorem ordinal_clamp (config : KvCachePolicyConfig) (level : KvCacheLevel) : (clamp config level).ordinal =
    max config.minLevel.ordinal (min level.ordinal config.maxLevel.ordinal) := by
  have least := ordinal_le config.minLevel
  have greatest := ordinal_le level
  exact ordinal_fromOrdinal (by omega)

/-- The third level is only reached as a limit. -/
structure Holds (policy : KvCachePolicy) : Prop where
  valid : Valid policy.config
  stored : policy.level = policy.currentLevel.ordinal
  least : policy.config.minLevel.ordinal ≤ policy.currentLevel.ordinal
  greatest : policy.currentLevel.ordinal ≤ policy.config.maxLevel.ordinal
  fp8 : policy.currentLevel = .fp8 → policy.config.minLevel = .fp8 ∨ policy.config.maxLevel = .fp8
  pressure : 0 ≤ policy.pressureEwma ∧ policy.pressureEwma ≤ 1

/-- The counters agree with the levels that were seen. -/
structure Consistent (state : Watched) : Prop where
  holds : Holds state.policy
  latest : ∃ levels, state.levels = state.policy.currentLevel :: levels
  upgrades : state.policy.upgrades = rises state.levels
  downgrades : state.policy.downgrades = falls state.levels

section Observe

variable {policy : KvCachePolicy}

/-- An average of fractions is a fraction. -/
theorem smooth_bounds (holds : Holds policy) (pressure : Rat) :
    0 ≤ policy.smooth pressure ∧ policy.smooth pressure ≤ 1 := by
  have low : 0 ≤ max 0 (min pressure 1) := le_max_left _ _
  have high : max 0 (min pressure 1) ≤ 1 := max_le (by norm_num) (min_le_right _ _)
  obtain ⟨nonneg, le_one⟩ := holds.valid.alpha
  obtain ⟨low', high'⟩ := holds.pressure
  simp only [smooth]
  by_cases first : policy.samples = 0
  · rw [if_pos first]
    exact ⟨low, high⟩
  · rw [if_neg first]
    constructor
    · exact add_nonneg (mul_nonneg nonneg low) (mul_nonneg (by linarith) low')
    · have left := mul_le_mul_of_nonneg_left high nonneg
      have right := mul_le_mul_of_nonneg_left high' (show 0 ≤ 1 - policy.config.ewmaAlpha by linarith)
      linarith

/-- The level after an observation. -/
def target (policy : KvCachePolicy) (pressure : Rat) : KvCacheLevel :=
  policy.targetLevel (policy.smooth pressure) policy.currentLevel

theorem observe_eq (stored : policy.level = policy.currentLevel.ordinal) (pressure : Rat) :
    policy.observe pressure = (policy.target pressure,
      { policy with
        pressureEwma := policy.smooth pressure
        samples := policy.samples + 1
        level := (policy.target pressure).ordinal
        upgrades := policy.upgrades + if policy.currentLevel.ordinal < (policy.target pressure).ordinal then 1 else 0
        downgrades :=
          policy.downgrades + if (policy.target pressure).ordinal < policy.currentLevel.ordinal then 1 else 0 }) := by
  have unfolded : policy.observe pressure =
      if policy.target pressure = policy.currentLevel then (policy.target pressure,
        { policy with pressureEwma := policy.smooth pressure, samples := policy.samples + 1 })
      else if (policy.target pressure).ordinal > policy.currentLevel.ordinal then (policy.target pressure,
        { policy with
          pressureEwma := policy.smooth pressure
          samples := policy.samples + 1
          level := (policy.target pressure).ordinal
          upgrades := policy.upgrades + 1 })
      else (policy.target pressure,
        { policy with
          pressureEwma := policy.smooth pressure
          samples := policy.samples + 1
          level := (policy.target pressure).ordinal
          downgrades := policy.downgrades + 1 }) := rfl
  rw [unfolded]
  by_cases same : policy.target pressure = policy.currentLevel
  · rw [if_pos same, same, ← stored]
    simp
  · have differ : (policy.target pressure).ordinal ≠ policy.currentLevel.ordinal := by
      intro equal
      have back := congrArg fromOrdinal equal
      rw [fromOrdinal_ordinal, fromOrdinal_ordinal] at back
      exact same back
    rw [if_neg same]
    by_cases rise : policy.currentLevel.ordinal < (policy.target pressure).ordinal
    · rw [if_pos rise]
      simp [rise, Nat.lt_asymm rise]
    · have fall : (policy.target pressure).ordinal < policy.currentLevel.ordinal := by omega
      rw [if_neg rise]
      simp [fall, rise]

theorem currentLevel_observe (stored : policy.level = policy.currentLevel.ordinal) (pressure : Rat) :
    (policy.observe pressure).2.currentLevel = policy.target pressure := by
  rw [observe_eq stored, currentLevel]
  exact fromOrdinal_ordinal _

theorem target_bounds (holds : Holds policy) (pressure : Rat) :
    policy.config.minLevel.ordinal ≤ (policy.target pressure).ordinal ∧
      (policy.target pressure).ordinal ≤ policy.config.maxLevel.ordinal := by
  have levels := holds.valid.levels
  rw [target, targetLevel, ordinal_clamp]
  omega

/-- A delayed level is never the third one, unless it is the level before. -/
theorem delayed_ne_fp8 (config : KvCachePolicyConfig) (smoothed : Rat) (current : KvCacheLevel) :
    delayed config smoothed current (rawLevel config smoothed) ≠ .fp8 := by
  have raw : rawLevel config smoothed ≠ .fp8 := by
    unfold rawLevel
    split
    · decide
    · split
      · decide
      · decide
  unfold delayed
  split
  · split
    · exact raw
    · decide
  · split
    · exact raw
    · decide
  · split
    · decide
    · decide
  · exact raw

theorem target_fp8 (holds : Holds policy) (pressure : Rat) (third : policy.target pressure = .fp8) :
    policy.config.minLevel = .fp8 ∨ policy.config.maxLevel = .fp8 := by
  have levels := holds.valid.levels
  have other := delayed_ne_fp8 policy.config (policy.smooth pressure) policy.currentLevel
  have ordinals := ordinal_clamp policy.config (delayed policy.config (policy.smooth pressure) policy.currentLevel
    (rawLevel policy.config (policy.smooth pressure)))
  rw [target, targetLevel] at third
  rw [third] at ordinals
  generalize delayed policy.config (policy.smooth pressure) policy.currentLevel
    (rawLevel policy.config (policy.smooth pressure)) = level at other ordinals
  have injective (first second : KvCacheLevel) (same : first.ordinal = second.ordinal) : first = second := by
    rw [← fromOrdinal_ordinal first, same, fromOrdinal_ordinal]
  have apart : level.ordinal ≠ KvCacheLevel.fp8.ordinal := fun same => other (injective _ _ same)
  rcases (show policy.config.minLevel.ordinal = KvCacheLevel.fp8.ordinal ∨
      policy.config.maxLevel.ordinal = KvCacheLevel.fp8.ordinal by omega) with same | same
  · exact Or.inl (injective _ _ same)
  · exact Or.inr (injective _ _ same)

end Observe

section Hysteresis

variable {config : KvCachePolicyConfig} {smoothed : Rat}

/-- A change to a level is guarded if it crosses no threshold downwards within the margin. -/
def Guarded (config : KvCachePolicyConfig) (smoothed : Rat) (current next : KvCacheLevel) : Prop :=
  ∀ threshold, Above config threshold current → ¬ Above config threshold next →
    smoothed < threshold.value config - config.hysteresis

theorem guarded_of_le {current next : KvCacheLevel} (le : current.ordinal ≤ next.ordinal) :
    Guarded config smoothed current next :=
  fun _ above below => absurd (above.trans le) below

variable (valid : Valid config)
include valid

theorem guarded_of_lt (low : smoothed < config.q8Threshold - config.hysteresis) (current next : KvCacheLevel) :
    Guarded config smoothed current next := by
  intro threshold _ _
  have ordered := valid.ordered
  cases threshold with
  | q8 => exact low
  | q4 => exact low.trans_le (sub_le_sub_right ordered _)

/-- From the second level the policy only goes down below the margin. -/
theorem guarded_q8 (least : config.minLevel.ordinal ≤ 1) (greatest : 1 ≤ config.maxLevel.ordinal) :
    Guarded config smoothed .q8 (clamp config (delayed config smoothed .q8 (rawLevel config smoothed))) := by
  by_cases low : smoothed < config.q8Threshold - config.hysteresis
  · exact guarded_of_lt valid low _ _
  · apply guarded_of_le
    have kept : 1 ≤ (delayed config smoothed .q8 (rawLevel config smoothed)).ordinal := by
      unfold rawLevel
      split
      · exact Nat.le_of_ble_eq_true rfl
      · split
        · exact Nat.le_refl 1
        · rw [delayed, if_neg low]
          exact Nat.le_refl 1
    rw [ordinal_clamp]
    change 1 ≤ _
    omega

/-- The fourth level is left below the margin of the upper threshold, whether the lower one is crossed or not. -/
theorem guarded_q4_iff (greatest : 3 ≤ config.maxLevel.ordinal) :
    Guarded config smoothed .q4 (clamp config (delayed config smoothed .q4 (rawLevel config smoothed))) ↔
      (config.minLevel = .fp16 → smoothed < config.q4Threshold - config.hysteresis → smoothed < config.q8Threshold →
        smoothed < config.q8Threshold - config.hysteresis) := by
  have most := ordinal_le config.maxLevel
  have margin := valid.margin.1
  by_cases low : smoothed < config.q4Threshold - config.hysteresis
  · have below : ¬ config.q4Threshold ≤ smoothed := by linarith
    by_cases crossed : smoothed < config.q8Threshold
    · have next : delayed config smoothed .q4 (rawLevel config smoothed) = .fp16 := by
        rw [rawLevel, if_neg below, if_neg (not_le.mpr crossed), delayed, if_pos low]
      rw [next]
      constructor
      · intro guarded least _ _
        refine guarded .q8 ?_ ?_
        · rw [Above, ordinal_clamp, least]
          change max 0 (min 1 _) ≤ 3
          omega
        · rw [Above, ordinal_clamp, ordinal_clamp, least]
          change ¬ max 0 (min 1 _) ≤ max 0 (min 0 _)
          omega
      · intro guard threshold above below
        cases threshold with
        | q4 => exact low
        | q8 =>
            rw [Above, ordinal_clamp, ordinal_clamp] at below
            change ¬ max _ (min 1 _) ≤ max _ (min 0 _) at below
            refine guard ?_ low crossed
            rw [← fromOrdinal_ordinal config.minLevel, show config.minLevel.ordinal = 0 by omega]
            rfl
    · have next : delayed config smoothed .q4 (rawLevel config smoothed) = .q8 := by
        rw [rawLevel, if_neg below, if_pos (not_lt.mp crossed), delayed, if_pos low]
      rw [next]
      refine iff_of_true (fun threshold _ below => ?_) fun _ _ low' => absurd low' crossed
      cases threshold with
      | q4 => exact low
      | q8 => exact absurd (Nat.le_refl _) below
  · have kept : delayed config smoothed .q4 (rawLevel config smoothed) = .q4 := by
      unfold rawLevel
      split
      · rfl
      · split
        · rw [delayed, if_neg low]
        · rw [delayed, if_neg low]
    rw [kept]
    refine iff_of_true (guarded_of_le ?_) fun _ low' => absurd low' low
    rw [ordinal_clamp]
    change 3 ≤ max _ (min 3 _)
    omega

/-- The third level is left without a margin. -/
theorem guarded_fp8_iff (limit : config.minLevel = .fp8 ∨ config.maxLevel = .fp8) (levels : config.minLevel.ordinal ≤ 2) :
    Guarded config smoothed .fp8 (clamp config (delayed config smoothed .fp8 (rawLevel config smoothed))) ↔
      (config.minLevel ≠ .fp8 → (smoothed < config.q4Threshold → smoothed < config.q4Threshold - config.hysteresis) ∧
        (config.minLevel = .fp16 → smoothed < config.q8Threshold →
          smoothed < config.q8Threshold - config.hysteresis)) := by
  have raw : delayed config smoothed .fp8 (rawLevel config smoothed) = rawLevel config smoothed := by
    cases rawLevel config smoothed <;> rfl
  rw [raw]
  rcases limit with least | most
  · refine iff_of_true (guarded_of_le ?_) fun other => absurd least other
    rw [ordinal_clamp, least]
    exact Nat.le_max_left _ _
  · by_cases least : config.minLevel = .fp8
    · refine iff_of_true (guarded_of_le ?_) fun other => absurd least other
      rw [ordinal_clamp, least]
      exact Nat.le_max_left _ _
    · have small : config.minLevel.ordinal ≤ 1 := by
        cases lowest : config.minLevel with
        | fp16 => decide
        | q8 => decide
        | fp8 => exact absurd lowest least
        | q4 =>
            rw [lowest] at levels
            exact absurd levels (by decide)
      have upper : Above config .q4 .fp8 := by
        rw [Above, ordinal_clamp, most]
        change max _ (min 3 2) ≤ 2
        omega
      have lower : Above config .q8 .fp8 := by
        rw [Above, ordinal_clamp, most]
        change max _ (min 1 2) ≤ 2
        omega
      have leavesUpper : ¬ Above config .q4 (clamp config (rawLevel config smoothed)) ↔
          smoothed < config.q4Threshold := by
        rw [Above, ordinal_clamp, ordinal_clamp, most, rawLevel]
        by_cases high : config.q4Threshold ≤ smoothed
        · rw [if_pos high]
          exact iff_of_false (not_not_intro (Nat.le_refl _)) (not_lt.mpr high)
        · refine iff_of_true ?_ (not_le.mp high)
          rw [if_neg high]
          split
          · change ¬ max _ (min 3 2) ≤ max _ (min 1 2)
            omega
          · change ¬ max _ (min 3 2) ≤ max _ (min 0 2)
            omega
      have leavesLower : ¬ Above config .q8 (clamp config (rawLevel config smoothed)) ↔
          config.minLevel = .fp16 ∧ smoothed < config.q8Threshold := by
        have zero : config.minLevel.ordinal = 0 ↔ config.minLevel = .fp16 := by
          cases config.minLevel <;> decide
        rw [Above, ordinal_clamp, ordinal_clamp, most, rawLevel, ← zero, ← not_le]
        have ordered := valid.ordered
        by_cases high : config.q4Threshold ≤ smoothed
        · rw [if_pos high]
          change ¬ max _ (min 1 2) ≤ max _ (min 3 2) ↔ _
          refine iff_of_false ?_ fun both => both.2 (ordered.trans high)
          omega
        · rw [if_neg high]
          by_cases middle : config.q8Threshold ≤ smoothed
          · rw [if_pos middle]
            exact iff_of_false (not_not_intro (Nat.le_refl _)) fun both => both.2 middle
          · rw [if_neg middle, and_iff_left middle]
            change ¬ max _ (min 1 2) ≤ max _ (min 0 2) ↔ _
            omega
      constructor
      · intro guarded _
        exact ⟨fun low => guarded .q4 upper (leavesUpper.mpr low),
          fun least low => guarded .q8 lower (leavesLower.mpr ⟨least, low⟩)⟩
      · intro guard threshold _ below
        cases threshold with
        | q4 => exact (guard least).1 (leavesUpper.mp below)
        | q8 => exact (guard least).2 (leavesLower.mp below).1 (leavesLower.mp below).2

omit valid

/-- The margins that an observation has to avoid depend on the level before. -/
theorem guarded_target_iff {policy : KvCachePolicy} (holds : Holds policy) (pressure : Rat) :
    Guarded policy.config (policy.smooth pressure) policy.currentLevel (policy.target pressure) ↔
      (policy.currentLevel = .q4 → policy.config.minLevel = .fp16 →
        policy.smooth pressure < policy.config.q4Threshold - policy.config.hysteresis →
        policy.smooth pressure < policy.config.q8Threshold →
        policy.smooth pressure < policy.config.q8Threshold - policy.config.hysteresis) ∧
      (policy.currentLevel = .fp8 → policy.config.minLevel ≠ .fp8 →
        (policy.smooth pressure < policy.config.q4Threshold →
          policy.smooth pressure < policy.config.q4Threshold - policy.config.hysteresis) ∧
        (policy.config.minLevel = .fp16 → policy.smooth pressure < policy.config.q8Threshold →
          policy.smooth pressure < policy.config.q8Threshold - policy.config.hysteresis)) := by
  have least := holds.least
  have greatest := holds.greatest
  have limit := holds.fp8
  rw [target, targetLevel]
  cases current : policy.currentLevel with
  | fp16 =>
      refine iff_of_true (guarded_of_le (Nat.zero_le _)) ⟨nofun, nofun⟩
  | q8 =>
      rw [current] at least greatest
      exact iff_of_true (guarded_q8 holds.valid least greatest) ⟨nofun, nofun⟩
  | fp8 =>
      rw [current] at least
      rw [guarded_fp8_iff holds.valid (limit current) least]
      exact ⟨fun guard => ⟨nofun, fun _ => guard⟩, fun guard => guard.2 rfl⟩
  | q4 =>
      rw [current] at greatest
      rw [guarded_q4_iff holds.valid greatest]
      exact ⟨fun guard => ⟨fun _ => guard, nofun⟩, fun guard => guard.1 rfl⟩

end Hysteresis

section Run

variable {state : Watched}

theorem Consistent.next (consistent : Consistent state) (call : Call) : Consistent (watch state call) := by
  have holds := consistent.holds
  cases call with
  | observe pressure =>
      obtain ⟨levels, latest⟩ := consistent.latest
      have eq := observe_eq holds.stored pressure
      have current := currentLevel_observe holds.stored pressure
      have bounds := target_bounds holds pressure
      constructor
      · change Holds (state.policy.observe pressure).2
        constructor
        · rw [eq]
          exact holds.valid
        · rw [current, eq]
        · rw [current, eq]
          exact bounds.1
        · rw [current, eq]
          exact bounds.2
        · rw [current, eq]
          exact target_fp8 holds pressure
        · rw [eq]
          exact smooth_bounds holds pressure
      · exact ⟨state.levels, rfl⟩
      · change (state.policy.observe pressure).2.upgrades =
          rises ((state.policy.observe pressure).2.currentLevel :: state.levels)
        have counted := consistent.upgrades
        rw [latest] at counted ⊢
        rw [current, eq, rises, ← counted]
        exact Nat.add_comm _ _
      · change (state.policy.observe pressure).2.downgrades =
          falls ((state.policy.observe pressure).2.currentLevel :: state.levels)
        have counted := consistent.downgrades
        rw [latest] at counted ⊢
        rw [current, eq, falls, ← counted]
        exact Nat.add_comm _ _
  | reset =>
      have current : state.policy.reset.currentLevel = state.policy.config.minLevel := fromOrdinal_ordinal _
      constructor
      · change Holds state.policy.reset
        constructor
        · exact holds.valid
        · rw [current]
          rfl
        · rw [current]
          exact Nat.le_refl _
        · rw [current]
          exact holds.valid.levels
        · rw [current]
          exact Or.inl
        · exact ⟨le_refl _, zero_le_one⟩
      · exact ⟨[], rfl⟩
      · rfl
      · rfl

theorem watch_config (call : Call) (stored : state.policy.level = state.policy.currentLevel.ordinal) :
    (watch state call).policy.config = state.policy.config := by
  cases call with
  | observe pressure =>
      change (state.policy.observe pressure).2.config = _
      rw [observe_eq stored]
  | reset => rfl

/-- A call is lawful exactly if it avoids the margins. -/
theorem Consistent.lawful_iff (consistent : Consistent state) (call : Call) :
    Lawful state call ↔ AvoidsMargins state call := by
  have stored := consistent.holds.stored
  have next := consistent.next call
  have observed (pressure : Rat) : (watch state (.observe pressure)).policy = (state.policy.observe pressure).2 := rfl
  constructor
  · intro lawful pressure observes
    subst observes
    apply (guarded_target_iff consistent.holds pressure).mp
    have guarded := (lawful.hysteresis pressure rfl).2
    rw [observed, currentLevel_observe stored, observe_eq stored] at guarded
    exact guarded
  · intro avoids
    refine ⟨?_, next.holds.pressure, fun pressure observes => ?_, next.upgrades, next.downgrades⟩
    · rw [← watch_config call stored]
      exact ⟨next.holds.least, next.holds.greatest⟩
    · subst observes
      rw [observed, currentLevel_observe stored, observe_eq stored]
      exact ⟨rfl, (guarded_target_iff consistent.holds pressure).mpr (avoids pressure rfl)⟩

theorem new_consistent {config : KvCachePolicyConfig} {policy : KvCachePolicy} (created : new config = .ok policy) :
    Consistent ⟨policy, [policy.currentLevel]⟩ := by
  have valid : Valid config := by
    cases accepted : config.validate with
    | error error =>
        rw [new, accepted] at created
        cases created
    | ok _ => exact validate_ok accepted
  have policy_eq : policy = ⟨config, config.minLevel.ordinal, 0, 0, 0, 0⟩ := by
    unfold new at created
    split at created
    · cases created
    · exact (Except.ok.inj created).symm
  have current : policy.currentLevel = config.minLevel := by
    rw [policy_eq]
    exact fromOrdinal_ordinal _
  constructor
  · constructor
    · rw [policy_eq]
      exact valid
    · rw [current, policy_eq]
    · rw [current, policy_eq]
    · rw [current, policy_eq]
      exact valid.levels
    · rw [current, policy_eq]
      exact Or.inl
    · rw [policy_eq]
      exact ⟨le_refl _, zero_le_one⟩
  · exact ⟨[], rfl⟩
  · rw [policy_eq]
    rfl
  · rw [policy_eq]
    rfl

/-- All calls of a history are lawful if and only if each observation avoids the margins. -/
theorem history_hysteresis_iff {config : KvCachePolicyConfig} {policy : KvCachePolicy}
    (created : new config = .ok policy) (calls : List Call) :
    Meets (total watch) Lawful ⟨policy, [policy.currentLevel]⟩ calls ↔
      Meets (total watch) AvoidsMargins ⟨policy, [policy.currentLevel]⟩ calls :=
  meets_iff_meets (fun _ call consistent => consistent.lawful_iff call)
    (fun _ call consistent _ => consistent.next call) (new_consistent created)

theorem new_default : new .default = .ok ⟨.default, 0, 0, 0, 0, 0⟩ := by
  have accepted : KvCachePolicyConfig.default.validate = .ok () := by decide +kernel
  rw [new, accepted]
  rfl

theorem history_hysteresis_default :
    Meets (total watch) Lawful ⟨⟨.default, 0, 0, 0, 0, 0⟩, [.fp16]⟩ [.observe (24 / 25), .observe 0] ↔
      Meets (total watch) AvoidsMargins ⟨⟨.default, 0, 0, 0, 0, 0⟩, [.fp16]⟩ [.observe (24 / 25), .observe 0] :=
  history_hysteresis_iff new_default [.observe (24 / 25), .observe 0]

/-- A single observation leads from the fourth level to the first one while the pressure is within the margin. -/
theorem observe_within_margin : new .default = .ok ⟨.default, 0, 0, 0, 0, 0⟩ ∧
    ¬ Meets (total watch) Lawful ⟨⟨.default, 0, 0, 0, 0, 0⟩, [.fp16]⟩ [.observe (24 / 25), .observe 0] := by
  refine ⟨new_default, fun lawful => ?_⟩
  obtain ⟨_, second, _⟩ := (meets_total.trans (and_congr_right fun _ => meets_total)).mp lawful
  have low := (second.hysteresis 0 rfl).2 .q8 (by decide +kernel) (by decide +kernel)
  exact absurd low (by decide +kernel)

end Run

end Pictor.KvCachePolicy
