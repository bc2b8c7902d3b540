/-
A position is below the largest machine number. A product of heads and head size beyond the machine numbers accepts no
push.
-/

import Pictor.Library.Slice

namespace Pictor.SlidingWindow

structure SlidingWindowConfig where
  windowSize : Nat
  sinkTokens : Nat

/-- The positions that a query attends to, and their number. -/
def attentionRange (pos seqLen : Nat) (config : SlidingWindowConfig) : List Nat × Nat :=
  if config.windowSize = 0 ∨ seqLen = 0 then ([], 0)
  else
    let effectiveSeqLen := min seqLen (pos + 1)
    let sinkCount := min config.sinkTokens effectiveSeqLen
    if effectiveSeqLen ≤ config.windowSize then
      let positions := List.range effectiveSeqLen
      (positions, positions.length)
    else
      let recentBudget := config.windowSize - sinkCount
      let recentStart :=
        if recentBudget < pos + 1 then max (pos + 1 - recentBudget) sinkCount else sinkCount
      let recentEnd := pos + 1
      let positions := List.range sinkCount ++ List.range' recentStart (recentEnd - recentStart)
      (positions, positions.length)

/-- The pairs of a score and its key position, masked one after another; a score without a key stays. -/
def maskPairs {Score : Type} (negInfinity : Score) (validPositions : List Nat) : List Score → List Nat → List Score
  | score :: scores, keyPos :: keyPositions =>
      (if keyPos ∈ validPositions then score else negInfinity) ::
        maskPairs negInfinity validPositions scores keyPositions
  | scores, _ => scores

def applySlidingWindowMask {Score : Type} (negInfinity : Score) (scores : List Score) (queryPos : Nat)
    (keyPositions : List Nat) (config : SlidingWindowConfig) : List Score :=
  if config.windowSize = 0 then scores.map fun _ => negInfinity
  else maskPairs negInfinity (attentionRange queryPos (queryPos + 1) config).1 scores keyPositions

/-- The entries from a position on, those outside the window reset, and the number of resets. -/
def evictFrom {Entry : Type} (default : Entry) (validPositions : List Nat) :
    Nat → List Entry → List Entry × Nat
  | _, [] => ([], 0)
  | pos, entry :: entries =>
      let rest := evictFrom default validPositions (pos + 1) entries
      if pos ∈ validPositions then (entry :: rest.1, rest.2) else (default :: rest.1, rest.2 + 1)

def evictOutsideWindow {Entry : Type} (default : Entry) (cache : List Entry) (currentPos : Nat)
    (config : SlidingWindowConfig) : List Entry × Nat :=
  if config.windowSize = 0 ∨ cache = [] then (cache, 0)
  else
    let seqLen := min cache.length (currentPos + 1)
    let validPositions := (attentionRange currentPos seqLen config).1
    let seen := evictFrom default validPositions 0 (cache.take seqLen)
    (seen.1 ++ cache.drop seqLen, seen.2)

def isInWindow (keyPos queryPos : Nat) (config : SlidingWindowConfig) : Bool :=
  if config.windowSize = 0 then false
  else if keyPos < config.sinkTokens then true
  else if keyPos ≤ queryPos then queryPos - keyPos < config.windowSize - config.sinkTokens
  else false

end Pictor.SlidingWindow

namespace Pictor.AttentionSink
open Slice

structure AttentionSinkConfig where
  numSinkTokens : Nat
  windowSize : Nat

structure SinkSlot (Value : Type) where
  originalPosition : Nat
  key : List Value
  value : List Value

inductive SinkError where
  | headOutOfRange (head numHeads : Nat)
  | shapeMismatch (expected actual : Nat)

structure AttentionSinkLayer (Value : Type) where
  config : AttentionSinkConfig
  headDim : Nat
  numHeads : Nat
  sinks : List (List (SinkSlot Value))
  recent : List (List (SinkSlot Value))
  totalTokens : Nat
  evicted : Nat

namespace AttentionSinkLayer

variable {Value : Type}

def new (config : AttentionSinkConfig) (numHeads headDim : Nat) : AttentionSinkLayer Value where
  config := config
  headDim := headDim
  numHeads := numHeads
  sinks := List.replicate numHeads []
  recent := List.replicate numHeads []
  totalTokens := 0
  evicted := 0

def headSlice (elements : List Value) (head headDim : Nat) : List Value :=
  slice elements (head * headDim) headDim

/-- One pass of the loop of a push over the heads. -/
def pushHead (keys values : List Value) (pos : Nat) (layer : AttentionSinkLayer Value) (head : Nat) :
    AttentionSinkLayer Value :=
  let slot : SinkSlot Value := ⟨pos, headSlice keys head layer.headDim, headSlice values head layer.headDim⟩
  if pos < layer.config.numSinkTokens then { layer with sinks := layer.sinks.modify head (· ++ [slot]) }
  else
    let full := layer.config.windowSize ≤ (layer.recent.getD head []).length
    -- The first head alone counts an eviction, and an empty buffer has nothing to remove.
    let evicted := if full ∧ head = 0 then layer.evicted + 1 else layer.evicted
    let recent := if full then layer.recent.modify head List.tail else layer.recent
    { layer with evicted, recent := recent.modify head (· ++ [slot]) }

def push (layer : AttentionSinkLayer Value) (keys values : List Value) :
    Except SinkError (AttentionSinkLayer Value) :=
  let expected := layer.numHeads * layer.headDim
  if keys.length ≠ expected then .error (.shapeMismatch expected keys.length)
  else if values.length ≠ expected then .error (.shapeMismatch expected values.length)
  else
    let pushed := (List.range layer.numHeads).foldl (pushHead keys values layer.totalTokens) layer
    .ok { pushed with totalTokens := layer.totalTokens + 1 }

def firstLength (heads : List (List (SinkSlot Value))) : Nat := (heads.head?.map List.length).getD 0

def getRemappedPositions (layer : AttentionSinkLayer Value) : List Nat :=
  let sinkCount := firstLength layer.sinks
  let recentCount := firstLength layer.recent
  List.range sinkCount ++ (List.range recentCount).map (sinkCount + ·)

def cacheLen (layer : AttentionSinkLayer Value) : Nat := firstLength layer.sinks + firstLength layer.recent

/-- The keys or the values of one head, those of the sinks before those of the recent tokens. -/
def getForHead (part : SinkSlot Value → List Value) (layer : AttentionSinkLayer Value) (head : Nat) :
    Except SinkError (List Value) :=
  if layer.numHeads ≤ head then .error (.headOutOfRange head layer.numHeads)
  else .ok ((layer.sinks.getD head []).flatMap part ++ (layer.recent.getD head []).flatMap part)

def getKeysForHead (layer : AttentionSinkLayer Value) (head : Nat) : Except SinkError (List Value) :=
  layer.getForHead SinkSlot.key head

def getValuesForHead (layer : AttentionSinkLayer Value) (head : Nat) : Except SinkError (List Value) :=
  layer.getForHead SinkSlot.value head

def evictedCount (layer : AttentionSinkLayer Value) : Nat := layer.evicted

end AttentionSinkLayer

end Pictor.AttentionSink
