import Mathlib

namespace Pictor.DraftAndVerify

/-- The smoothed mean of the accepted tokens: its first value, its update, and its rounded successor. -/
structure Averages (Ewma : Type) where
  zero : Ewma
  first : Nat → Ewma
  mix : Nat → Ewma → Ewma
  target : Ewma → Int

structure AdaptiveLookaheadConfig where
  initial : Nat
  min : Nat
  max : Nat
  cooldownSteps : Nat

/-- The first two checks hold for every bound, the next two for the initial value. -/
def AdaptiveLookaheadConfig.Validates (config : AdaptiveLookaheadConfig) : Prop :=
  config.min ≠ 0 ∧ config.min ≤ config.max ∧ config.min ≤ config.initial ∧ config.initial ≤ config.max

structure AdaptiveLookahead (Ewma : Type) where
  config : AdaptiveLookaheadConfig
  current : Nat
  acceptedEwma : Ewma
  observations : Nat
  cooldownLeft : Nat
  updates : Nat

/-- The cast of a 64-bit size to a signed number. -/
def asI64 (size : Nat) : Int := if size < 2 ^ 63 then size else (size : Int) - 2 ^ 64

/-- The cast of a signed number to a 64-bit size. -/
def asUsize (number : Int) : Nat := (if number < 0 then number + 2 ^ 64 else number).toNat

/-- A clamp between bounds that are not in order stops the program. -/
def clamp (low high value : Int) : Option Int :=
  if low ≤ high then some (if value < low then low else if high < value then high else value) else none

namespace AdaptiveLookahead

variable {Ewma : Type} (averages : Averages Ewma)

def new (config : AdaptiveLookaheadConfig) : AdaptiveLookahead Ewma where
  config := config
  current := config.initial
  acceptedEwma := averages.zero
  observations := 0
  cooldownLeft := config.cooldownSteps
  updates := 0

def computeTarget (adaptive : AdaptiveLookahead Ewma) : Option Nat :=
  (clamp (asI64 adaptive.config.min) (asI64 adaptive.config.max) (averages.target adaptive.acceptedEwma)).map asUsize

/-- The outcome of a step is recorded. The target is taken once the cooldown is over. -/
def observeStep (adaptive : AdaptiveLookahead Ewma) (proposed accepted : Nat) : Option (AdaptiveLookahead Ewma) :=
  let acceptedClamped := Nat.min accepted proposed
  let adaptive := { adaptive with
    acceptedEwma := if adaptive.observations = 0 then averages.first acceptedClamped
      else averages.mix acceptedClamped adaptive.acceptedEwma
    observations := Nat.min (adaptive.observations + 1) (2 ^ 64 - 1) }
  if 0 < adaptive.cooldownLeft then some { adaptive with cooldownLeft := adaptive.cooldownLeft - 1 }
  else
    (adaptive.computeTarget averages).map fun target =>
      { adaptive with
        current := target
        updates := if target ≠ adaptive.current then Nat.min (adaptive.updates + 1) (2 ^ 64 - 1) else adaptive.updates
        cooldownLeft := adaptive.config.cooldownSteps }

def reset (adaptive : AdaptiveLookahead Ewma) : AdaptiveLookahead Ewma := new averages adaptive.config

end AdaptiveLookahead

/-- The calls on the draft engine, with their failures. -/
abbrev DraftEngine (Failure : Type) : Type := List UInt32 → Except Failure (List UInt32)

structure SpeculativeDecoder (Ewma : Type) where
  lookahead : Nat
  totalSteps : Nat
  totalDraftTokens : Nat
  totalAcceptedTokens : Nat
  adaptive : Option (AdaptiveLookahead Ewma)

/-- The decisions of a verification, by the number of its step, the context, the place, and the token. -/
abbrev Decisions : Type := Nat → List UInt32 → Nat → UInt32 → Bool

structure SpeculativeStep where
  draftTokens : List UInt32
  acceptedTokens : List UInt32

namespace SpeculativeDecoder

variable {Ewma Failure : Type} (averages : Averages Ewma) (engine : DraftEngine Failure) (shouldAccept : Decisions)

def new (lookahead : Nat) : SpeculativeDecoder Ewma := ⟨lookahead, 0, 0, 0, none⟩

def withAdaptive (config : AdaptiveLookaheadConfig) : SpeculativeDecoder Ewma :=
  ⟨config.initial, 0, 0, 0, some (.new averages config)⟩

/-- The first token that the engine generates. An error or an empty answer gives none. -/
def generated (context : List UInt32) : Option UInt32 :=
  match engine context with
  | .ok (token :: _) => some token
  | _ => none

def draft : Nat → List UInt32 → List UInt32
  | 0, _ => []
  | k + 1, currentContext =>
      match generated engine currentContext with
      | some token => token :: draft k (currentContext ++ [token])
      | none => []

/-- The tokens up to the first rejection, or to the end of the target logits. -/
def verify (targetLogits : Nat) (accepts : Nat → UInt32 → Bool) : Nat → List UInt32 → List UInt32
  | _, [] => []
  | i, token :: draftTokens =>
      if targetLogits ≤ i then []
      else if accepts i token then token :: verify targetLogits accepts (i + 1) draftTokens
      else []

def step (decoder : SpeculativeDecoder Ewma) (context : List UInt32) (targetLogits : Nat) :
    Option (SpeculativeDecoder Ewma × SpeculativeStep) := do
  let draftTokens := draft engine decoder.lookahead context
  let acceptedTokens := verify targetLogits (shouldAccept decoder.totalSteps context) 0 draftTokens
  let decoder := { decoder with
    totalSteps := decoder.totalSteps + 1
    totalDraftTokens := decoder.totalDraftTokens + draftTokens.length
    totalAcceptedTokens := decoder.totalAcceptedTokens + acceptedTokens.length }
  let decoder ← match decoder.adaptive with
    | none => some decoder
    | some adaptive => (adaptive.observeStep averages draftTokens.length acceptedTokens.length).map fun adaptive =>
        { decoder with adaptive := some adaptive, lookahead := adaptive.current }
  return (decoder, ⟨draftTokens, acceptedTokens⟩)

/-- The tokens of a round: the accepted ones that fit, or one that the engine generates on its own. -/
def roundTokens (context acceptedTokens : List UInt32) (remaining : Nat) : Option (List UInt32) :=
  match acceptedTokens with
  | [] => (generated engine context).map fun token => [token]
  | acceptedTokens => some (acceptedTokens.take (min acceptedTokens.length remaining))

/-- The rounds of the generation. A run that is out of fuel has no result. -/
def generateLoop (promptTokens : List UInt32) (maxTokens : Nat) :
    Nat → SpeculativeDecoder Ewma → List UInt32 → List UInt32 → Option (List UInt32 × SpeculativeDecoder Ewma)
  | 0, _, _, _ => none
  | fuel + 1, decoder, output, context =>
      if output.length < maxTokens then
        let remaining := maxTokens - output.length
        let effectiveLookahead := min decoder.lookahead remaining
        (decoder.step averages engine shouldAccept context effectiveLookahead).bind fun (decoder, stepResult) =>
          match roundTokens engine context stepResult.acceptedTokens remaining with
          | none => some (output, decoder)
          | some tokens =>
              let context := context ++ tokens
              -- The bound on the context is never exceeded.
              if promptTokens.length + maxTokens + decoder.lookahead < context.length then some (output ++ tokens, decoder)
              else generateLoop promptTokens maxTokens fuel decoder (output ++ tokens) context
      else some (output, decoder)

def generateSpeculative (decoder : SpeculativeDecoder Ewma) (promptTokens : List UInt32) (maxTokens : Nat) :
    Option (List UInt32 × SpeculativeDecoder Ewma) :=
  generateLoop averages engine shouldAccept promptTokens maxTokens (maxTokens + 1) decoder [] promptTokens

end SpeculativeDecoder

end Pictor.DraftAndVerify
