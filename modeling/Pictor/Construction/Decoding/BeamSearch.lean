import Mathlib.Algebra.Order.Field.Basic
import Pictor.Library.StableSort

namespace Pictor

/-- A token that cannot follow has negative infinity, and no quotient of nothing is a number. -/
inductive LogProb (K : Type) where
  | finite (value : K)
  | negInfinity
  | nan
  deriving DecidableEq

namespace LogProb

variable {K : Type} [Field K] [LinearOrder K]

def add : LogProb K → LogProb K → LogProb K
  | nan, _ => nan
  | _, nan => nan
  | finite a, finite b => finite (a + b)
  | _, _ => negInfinity

/-- A finite value less negative infinity does not occur. -/
def sub : LogProb K → LogProb K → LogProb K
  | finite a, finite b => finite (a - b)
  | negInfinity, finite _ => negInfinity
  | _, _ => nan

/-- The divisor is positive. -/
def div (a : LogProb K) (divisor : K) : LogProb K :=
  match a with
  | finite a => finite (a / divisor)
  | negInfinity => negInfinity
  | nan => nan

/-- Nothing is less or greater than what is not a number. -/
def less : LogProb K → LogProb K → Bool
  | finite a, finite b => a < b
  | negInfinity, finite _ => true
  | _, _ => false

/-- The maximum passes over what is not a number. -/
def max (a b : LogProb K) : LogProb K :=
  if a = nan then b else if less a b then b else a

/-- A value that is not a number is not at least anything. -/
def atLeast (a b : LogProb K) : Bool := a ≠ nan && b ≠ nan && !less a b

/-- The comparison that sorts descending: the first value stays before the second one. -/
def descending (a b : LogProb K) : Bool := !less a b

def isFinite : LogProb K → Bool
  | finite _ => true
  | _ => false

end LogProb

/-- The real functions that scores are made of. -/
structure RealFunctions (K : Type) [Field K] [LinearOrder K] where
  exp : K → K
  ln : K → K
  powf : K → K → K
  powf_pos : ∀ base exponent, 0 < base → 0 < powf base exponent

/-- A vector of finite logits for the tokens, whose ids have 32 bits. -/
structure Logits (K : Type) where
  values : List K
  nonempty : values ≠ []
  small : values.length ≤ 2 ^ 32

structure BeamSearchConfig (K : Type) where
  beamWidth : Nat
  maxTokens : Nat
  lengthPenalty : K
  noRepeatNgramSize : Nat
  earlyStopping : Bool
  eosTokenId : UInt32

structure Beam (K : Type) where
  tokens : List UInt32
  logProb : LogProb K
  isDone : Bool

structure BeamSearchResult (K : Type) where
  sequences : List (List UInt32)
  scores : List (LogProb K)
  numSteps : Nat

/-- The highest-scoring sequence. -/
def BeamSearchResult.best {K : Type} (result : BeamSearchResult K) : List UInt32 := result.sequences.head?.getD []

/-- The engine with what a search calls. -/
structure BeamSearchEngine (K : Type) [Field K] [LinearOrder K] where
  config : BeamSearchConfig K
  real : RealFunctions K
  sorting : StableSort
  getLogits : List UInt32 → Nat → Logits K

/-- The beams of a search before a step. -/
structure SearchState (K : Type) where
  beams : List (Beam K)
  completed : List (Beam K)
  steps : Nat

/-- The tokens that would complete an n-gram of the sequence are set to negative infinity. -/
def applyNoRepeatNgram {Logit : Type} (negInfinity : Logit) (logits : List Logit) (tokens : List UInt32)
    (ngramSize : Nat) : List Logit :=
  if ngramSize = 0 ∨ tokens.length < ngramSize then logits
  else
    let prefixLen := ngramSize - 1
    let suffix := tokens.drop (tokens.length - prefixLen)
    (List.range (tokens.length - prefixLen)).foldl (fun logits start =>
      if (tokens.drop start).take prefixLen = suffix then
        match tokens[start + prefixLen]? with
        | some banned => logits.set banned.toNat negInfinity
        | none => logits
      else logits) logits

namespace BeamSearchEngine

variable {K : Type} [Field K] [LinearOrder K] (engine : BeamSearchEngine K)

/-- A search has at least one beam. -/
def width : Nat := max engine.config.beamWidth 1

/-- A sequence without tokens is treated as one of length 1. -/
def score (beam : Beam K) : LogProb K :=
  beam.logProb.div (engine.real.powf (max beam.tokens.length 1 : Nat) engine.config.lengthPenalty)

/-- The logarithm of the sum of the exponentials. Negative infinity adds nothing to the sum. -/
def logSumExp (shifted : List (LogProb K)) : LogProb K :=
  let terms := shifted.filterMap fun value => match value with
    | .finite value => some (engine.real.exp value)
    | _ => none
  if terms = [] then .negInfinity else .finite (engine.real.ln terms.sum)

/-- The log-softmax. The maximum of the finite logits is taken off first. -/
def logSoftmax (logits : List (LogProb K)) : List (LogProb K) :=
  let maxLogit := (logits.filter LogProb.isFinite).foldl LogProb.max .negInfinity
  let shifted := logits.map fun value => if value.isFinite then value.sub maxLogit else .negInfinity
  shifted.map fun value => value.sub (engine.logSumExp shifted)

def topKLogProbs (logits : List (LogProb K)) (k : Nat) : List (UInt32 × LogProb K) :=
  let indexed := (engine.logSoftmax logits).zipIdx.map fun (value, i) => (UInt32.ofNat i, value)
  (engine.sorting.sort (fun a b => LogProb.descending a.2 b.2) indexed).take k

def sortByScore (beams : List (Beam K)) : List (Beam K) :=
  engine.sorting.sort (fun a b => LogProb.descending (engine.score a) (engine.score b)) beams

def pruneBeams (beams : List (Beam K)) (beamWidth : Nat) : List (Beam K) := (engine.sortByScore beams).take beamWidth

/-- The logits of a sequence with the tokens masked that would repeat an n-gram. -/
def maskedLogits (tokens : List UInt32) (step : Nat) : List (LogProb K) :=
  let logits := (engine.getLogits tokens step).values.map LogProb.finite
  if 0 < engine.config.noRepeatNgramSize then
    applyNoRepeatNgram .negInfinity logits tokens engine.config.noRepeatNgramSize
  else logits

/-- A beam with one more token, which is done if the token ends the sequence. -/
def extend (beam : Beam K) (token : UInt32) (logProb : LogProb K) : Beam K where
  tokens := beam.tokens ++ [token]
  logProb := beam.logProb.add logProb
  isDone := token = engine.config.eosTokenId

def children (step : Nat) (beam : Beam K) : List (Beam K) :=
  (engine.topKLogProbs (engine.maskedLogits beam.tokens step) engine.width).map fun (token, logProb) =>
    engine.extend beam token logProb

/-- With early stopping, a child that is done is completed at once. -/
def finishes (beam : Beam K) : Bool := engine.config.earlyStopping && beam.isDone

def bestScore (beams : List (Beam K)) : LogProb K := (beams.map engine.score).foldl LogProb.max .negInfinity

/-- One step of the search, and whether the search goes on. -/
def round (step : Nat) (state : SearchState K) : SearchState K × Bool :=
  let live := state.beams.filter fun beam => !beam.isDone
  if live.isEmpty then ({ state with steps := step }, false)
  else
    let expanded := live.flatMap (engine.children step)
    let candidates := expanded.filter fun beam => !engine.finishes beam
    -- the beams that were done before are removed from the last one to the first one
    let completed := state.completed ++ expanded.filter engine.finishes ++ (state.beams.filter Beam.isDone).reverse
    if candidates.isEmpty then (⟨live, completed, step + 1⟩, false)
    else
      let beams := engine.pruneBeams candidates engine.width
      let outscored := engine.config.earlyStopping && !completed.isEmpty &&
        (engine.bestScore completed).atLeast (engine.bestScore beams)
      (⟨beams, completed, step + 1⟩, !outscored)

def loop : Nat → Nat → SearchState K → SearchState K
  | 0, _, state => state
  | remaining + 1, step, state =>
      let next := engine.round step state
      if next.2 then loop remaining (step + 1) next.1 else next.1

def start (initialTokens : List UInt32) : SearchState K := ⟨[⟨initialTokens, .finite 0, false⟩], [], 0⟩

/-- The state in which the search stops. -/
def stopped (initialTokens : List UInt32) : SearchState K :=
  engine.loop engine.config.maxTokens 0 (start initialTokens)

/-- The best completed beams and remaining beams. -/
def gathered (state : SearchState K) : List (Beam K) :=
  (engine.sortByScore (state.completed ++ state.beams)).take engine.width

def search (initialTokens : List UInt32) : BeamSearchResult K :=
  let state := engine.stopped initialTokens
  let completed := engine.gathered state
  ⟨completed.map Beam.tokens, completed.map engine.score, state.steps⟩

end BeamSearchEngine

end Pictor
