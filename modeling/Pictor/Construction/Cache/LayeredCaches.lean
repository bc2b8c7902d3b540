import Pictor.Library.Transitions
import Pictor.Library.Tiling

namespace Pictor.LayeredCaches
open Lockstep Tiling

/-- The keys and the values of one layer. -/
abbrev KvRow (Scalar : Type) := List Scalar × List Scalar

/-- A call has the keys and the values of all layers. -/
structure PushStep (Scalar : Type) where
  allKeys : List (List Scalar)
  allValues : List (List Scalar)

inductive QuantKvError where
  | capacityExceeded (capacity pos : Nat)
  | positionOutOfRange (pos : Nat)
  | headOutOfRange (head numHeads : Nat)
  | layerOutOfRange (layer numLayers : Nat)
  | shapeMismatch (expected actual : Nat)
  deriving DecidableEq

inductive SinkError where
  | headOutOfRange (head numHeads : Nat)
  | layerOutOfRange (layer numLayers : Nat)
  | shapeMismatch (expected actual : Nat)
  | sinkNotFilled (filled total : Nat)
  deriving DecidableEq

/-- A push returns an error, or the thread panics. -/
inductive Failure (Error : Type) where
  | error (error : Error)
  | panic
  deriving DecidableEq

/-- The check of one length in front of a push. -/
def refuseIf {Error : Type} (refused : Prop) [Decidable refused] (error : Error) : Except (Failure Error) Unit :=
  if refused then .error (.error error) else .ok ()

variable {Scalar : Type}

section Quantized

/-- The floating-point steps of the quantization of a row. -/
structure RowQuantizer (Scalar : Type) where
  epsilon : Scalar
  scale : List Scalar → Scalar
  code : Scalar → Scalar → Int8

def quantizeRowI8 (quantizer : RowQuantizer Scalar) (row : List Scalar) : List Int8 × Scalar :=
  if row = [] then ([], quantizer.epsilon)
  else
    let scale := quantizer.scale row
    (row.map (quantizer.code scale), scale)

structure QuantizedKvLayer (Scalar : Type) where
  keysI8 : List Int8
  keyScales : List Scalar
  valuesI8 : List Int8
  valueScales : List Scalar
  numKvHeads : Nat
  headDim : Nat
  capacity : Nat
  len : Nat
  deriving DecidableEq

namespace QuantizedKvLayer

variable [Zero Scalar] (quantizer : RowQuantizer Scalar)

def new (capacity numKvHeads headDim : Nat) : QuantizedKvLayer Scalar :=
  let dataLen := capacity * numKvHeads * headDim
  let scaleLen := capacity * numKvHeads
  ⟨List.replicate dataLen 0, List.replicate scaleLen 0, List.replicate dataLen 0, List.replicate scaleLen 0,
    numKvHeads, headDim, capacity, 0⟩

def dataOffset (layer : QuantizedKvLayer Scalar) (tokenPos head : Nat) : Nat :=
  (tokenPos * layer.numKvHeads + head) * layer.headDim

def scaleOffset (layer : QuantizedKvLayer Scalar) (tokenPos head : Nat) : Nat := tokenPos * layer.numKvHeads + head

/-- The row of one head is quantized and stored at the next position. -/
def pushHead (keys values : List Scalar) (layer : QuantizedKvLayer Scalar) (head : Nat) :
    Except (Failure QuantKvError) (QuantizedKvLayer Scalar) := do
  let rowStart := head * layer.headDim
  let rowEnd := rowStart + layer.headDim
  let dataOff := layer.dataOffset layer.len head
  let scaleOff := layer.scaleOffset layer.len head
  let keyRow ← part .panic keys rowStart rowEnd
  let quantizedKey := quantizeRowI8 quantizer keyRow
  let keysI8 ← onPart .panic dataOff (dataOff + layer.headDim) (copyOver .panic quantizedKey.1) layer.keysI8
  let keyScales ← setAt .panic scaleOff quantizedKey.2 layer.keyScales
  let valRow ← part .panic values rowStart rowEnd
  let quantizedValue := quantizeRowI8 quantizer valRow
  let valuesI8 ← onPart .panic dataOff (dataOff + layer.headDim) (copyOver .panic quantizedValue.1) layer.valuesI8
  let valueScales ← setAt .panic scaleOff quantizedValue.2 layer.valueScales
  return { layer with keysI8, keyScales, valuesI8, valueScales }

/-- All checks come before the first write. -/
def push (layer : QuantizedKvLayer Scalar) (row : KvRow Scalar) :
    Except (Failure QuantKvError) (QuantizedKvLayer Scalar) := do
  let (keys, values) := row
  let expected := layer.numKvHeads * layer.headDim
  refuseIf (keys.length ≠ expected) (.shapeMismatch expected keys.length)
  refuseIf (values.length ≠ expected) (.shapeMismatch expected values.length)
  refuseIf (layer.capacity ≤ layer.len) (.capacityExceeded layer.capacity layer.len)
  let layer ← (List.range layer.numKvHeads).foldlM (pushHead quantizer keys values) layer
  return { layer with len := layer.len + 1 }

end QuantizedKvLayer

structure QuantizedKvCache (Scalar : Type) where
  layers : List (QuantizedKvLayer Scalar)
  numLayers : Nat
  numKvHeads : Nat
  headDim : Nat
  deriving DecidableEq

namespace QuantizedKvCache

variable [Zero Scalar] (quantizer : RowQuantizer Scalar)

def new (numLayers capacity numKvHeads headDim : Nat) : QuantizedKvCache Scalar :=
  ⟨List.replicate numLayers (.new capacity numKvHeads headDim), numLayers, numKvHeads, headDim⟩

/-- The layers before the one that fails keep the token. -/
def pushStep (cache : QuantizedKvCache Scalar) (call : PushStep Scalar) :
    Except (Failure QuantKvError) Unit × QuantizedKvCache Scalar :=
  if call.allKeys.length ≠ cache.numLayers then
    (.error (.error (.layerOutOfRange call.allKeys.length cache.numLayers)), cache)
  else if call.allValues.length ≠ cache.numLayers then
    (.error (.error (.layerOutOfRange call.allValues.length cache.numLayers)), cache)
  else
    let (outcome, layers) := pushAll (QuantizedKvLayer.push quantizer) cache.layers (call.allKeys.zip call.allValues)
    (outcome, { cache with layers })

end QuantizedKvCache

end Quantized

section Sink

structure AttentionSinkConfig where
  numSinkTokens : Nat
  windowSize : Nat
  deriving DecidableEq

structure SinkSlot (Scalar : Type) where
  originalPosition : Nat
  key : List Scalar
  value : List Scalar
  deriving DecidableEq

/-- The recent slots of a head are in the order of their positions. -/
structure AttentionSinkLayer (Scalar : Type) where
  config : AttentionSinkConfig
  headDim : Nat
  numHeads : Nat
  sinks : List (List (SinkSlot Scalar))
  recent : List (List (SinkSlot Scalar))
  totalTokens : Nat
  evicted : Nat
  deriving DecidableEq

namespace AttentionSinkLayer

def new (config : AttentionSinkConfig) (numHeads headDim : Nat) : AttentionSinkLayer Scalar :=
  ⟨config, headDim, numHeads, List.replicate numHeads [], List.replicate numHeads [], 0, 0⟩

/-- The keys or the values of one head. -/
def headSlice (elements : List Scalar) (h headDim : Nat) : Except (Failure SinkError) (List Scalar) :=
  let start := h * headDim
  part .panic elements start (start + headDim)

/-- The slot of one head becomes a sink, or the most recent slot. -/
def pushHead (keys values : List Scalar) (layer : AttentionSinkLayer Scalar) (h : Nat) :
    Except (Failure SinkError) (AttentionSinkLayer Scalar) := do
  let k ← headSlice keys h layer.headDim
  let v ← headSlice values h layer.headDim
  let slot : SinkSlot Scalar := ⟨layer.totalTokens, k, v⟩
  if layer.totalTokens < layer.config.numSinkTokens then do
    let slots ← getAt .panic h layer.sinks
    return { layer with sinks := layer.sinks.set h (slots ++ [slot]) }
  else do
    let slots ← getAt .panic h layer.recent
    if layer.config.windowSize ≤ slots.length then
      return { layer with
        recent := layer.recent.set h (slots.drop 1 ++ [slot])
        evicted := if h = 0 then layer.evicted + 1 else layer.evicted }
    else return { layer with recent := layer.recent.set h (slots ++ [slot]) }

def push (layer : AttentionSinkLayer Scalar) (row : KvRow Scalar) :
    Except (Failure SinkError) (AttentionSinkLayer Scalar) := do
  let (keys, values) := row
  let expected := layer.numHeads * layer.headDim
  refuseIf (keys.length ≠ expected) (.shapeMismatch expected keys.length)
  refuseIf (values.length ≠ expected) (.shapeMismatch expected values.length)
  let layer ← (List.range layer.numHeads).foldlM (pushHead keys values) layer
  return { layer with totalTokens := layer.totalTokens + 1 }

/-- The number of slots of the first head. -/
def cacheLen (layer : AttentionSinkLayer Scalar) : Nat :=
  (layer.sinks.head?.map List.length).getD 0 + (layer.recent.head?.map List.length).getD 0

end AttentionSinkLayer

structure AttentionSinkCache (Scalar : Type) where
  layers : List (AttentionSinkLayer Scalar)
  config : AttentionSinkConfig
  numLayers : Nat
  deriving DecidableEq

namespace AttentionSinkCache

def new (numLayers numHeads headDim : Nat) (config : AttentionSinkConfig) : AttentionSinkCache Scalar :=
  ⟨List.replicate numLayers (.new config numHeads headDim), config, numLayers⟩

def pushStep (cache : AttentionSinkCache Scalar) (call : PushStep Scalar) :
    Except (Failure SinkError) Unit × AttentionSinkCache Scalar :=
  if call.allKeys.length ≠ cache.numLayers then
    (.error (.error (.shapeMismatch cache.numLayers call.allKeys.length)), cache)
  else if call.allValues.length ≠ cache.numLayers then
    (.error (.error (.shapeMismatch cache.numLayers call.allValues.length)), cache)
  else
    let (outcome, layers) := pushAll AttentionSinkLayer.push cache.layers (call.allKeys.zip call.allValues)
    (outcome, { cache with layers })

end AttentionSinkCache

end Sink

end Pictor.LayeredCaches
