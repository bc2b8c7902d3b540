/-
Pressures and thresholds are rational.
-/

import Mathlib.Algebra.Order.Ring.Rat

namespace Pictor

/-- The later levels are more compact. -/
inductive KvCacheLevel where
  | fp16
  | q8
  | fp8
  | q4
  deriving DecidableEq

namespace KvCacheLevel

def ordinal : KvCacheLevel → Nat
  | .fp16 => 0
  | .q8 => 1
  | .fp8 => 2
  | .q4 => 3

def fromOrdinal : Nat → KvCacheLevel
  | 0 => .fp16
  | 1 => .q8
  | 2 => .fp8
  | _ => .q4

end KvCacheLevel

structure KvCachePolicyConfig where
  q8Threshold : Rat
  q4Threshold : Rat
  hysteresis : Rat
  ewmaAlpha : Rat
  minLevel : KvCacheLevel
  maxLevel : KvCacheLevel

inductive KvCachePolicyError where
  | invalidConfig (message : String)
  deriving DecidableEq

namespace KvCachePolicyConfig

def default : KvCachePolicyConfig := ⟨4 / 5, 19 / 20, 1 / 20, 1 / 5, .fp16, .q4⟩

/-- A fraction lies between zero and one. -/
def contains (value : Rat) : Bool := 0 ≤ value ∧ value ≤ 1

def validate (config : KvCachePolicyConfig) : Except KvCachePolicyError Unit :=
  if ¬ contains config.q8Threshold then .error (.invalidConfig "q8_threshold must be in [0.0, 1.0]")
  else if ¬ contains config.q4Threshold then .error (.invalidConfig "q4_threshold must be in [0.0, 1.0]")
  else if config.q4Threshold < config.q8Threshold then .error (.invalidConfig "q4_threshold must be >= q8_threshold")
  else if ¬ contains config.hysteresis then .error (.invalidConfig "hysteresis must be in [0.0, 1.0]")
  else if ¬ contains config.ewmaAlpha then .error (.invalidConfig "ewma_alpha must be in [0.0, 1.0]")
  else if config.minLevel.ordinal > config.maxLevel.ordinal then
    .error (.invalidConfig "min_level must be <= max_level (less compact)")
  else .ok ()

end KvCachePolicyConfig

structure KvCachePolicy where
  config : KvCachePolicyConfig
  level : Nat
  pressureEwma : Rat
  samples : Nat
  upgrades : Nat
  downgrades : Nat

namespace KvCachePolicy

def new (config : KvCachePolicyConfig) : Except KvCachePolicyError KvCachePolicy :=
  match config.validate with
  | .error error => .error error
  | .ok () => .ok ⟨config, config.minLevel.ordinal, 0, 0, 0, 0⟩

def currentLevel (policy : KvCachePolicy) : KvCacheLevel := .fromOrdinal policy.level

/-- The first observation replaces the average. -/
def smooth (policy : KvCachePolicy) (pressure : Rat) : Rat :=
  let p := max 0 (min pressure 1)
  if policy.samples = 0 then p
  else policy.config.ewmaAlpha * p + (1 - policy.config.ewmaAlpha) * policy.pressureEwma

def rawLevel (config : KvCachePolicyConfig) (smoothed : Rat) : KvCacheLevel :=
  if config.q4Threshold ≤ smoothed then .q4
  else if config.q8Threshold ≤ smoothed then .q8
  else .fp16

/-- The hysteresis applies to the ways down from the fourth and the second level only. -/
def delayed (config : KvCachePolicyConfig) (smoothed : Rat) (current raw : KvCacheLevel) : KvCacheLevel :=
  match current, raw with
  | .q4, .q8 | .q4, .fp16 => if smoothed < config.q4Threshold - config.hysteresis then raw else .q4
  | .q8, .fp16 => if smoothed < config.q8Threshold - config.hysteresis then .fp16 else .q8
  | _, _ => raw

def clamp (config : KvCachePolicyConfig) (level : KvCacheLevel) : KvCacheLevel :=
  .fromOrdinal (max config.minLevel.ordinal (min level.ordinal config.maxLevel.ordinal))

def targetLevel (policy : KvCachePolicy) (smoothed : Rat) (current : KvCacheLevel) : KvCacheLevel :=
  clamp policy.config (delayed policy.config smoothed current (rawLevel policy.config smoothed))

def observe (policy : KvCachePolicy) (pressure : Rat) : KvCacheLevel × KvCachePolicy :=
  let policy := { policy with pressureEwma := policy.smooth pressure, samples := policy.samples + 1 }
  let current := policy.currentLevel
  let target := policy.targetLevel policy.pressureEwma current
  if target = current then (target, policy)
  else if target.ordinal > current.ordinal then
    (target, { policy with level := target.ordinal, upgrades := policy.upgrades + 1 })
  else (target, { policy with level := target.ordinal, downgrades := policy.downgrades + 1 })

def reset (policy : KvCachePolicy) : KvCachePolicy :=
  ⟨policy.config, policy.config.minLevel.ordinal, 0, 0, 0, 0⟩

/-- The calls that change a policy. -/
inductive Call where
  | observe (pressure : Rat)
  | reset

def perform (policy : KvCachePolicy) : Call → KvCachePolicy
  | .observe pressure => (policy.observe pressure).2
  | .reset => policy.reset

end KvCachePolicy

end Pictor
