import Pictor.Construction.Gguf.Writer

namespace Pictor.Export
open BuildArith Gguf LittleEndian Slice

inductive ExportFormat where
  | float32 | q1_0G128 | int8PerChannel | ternaryG128 | fp8E4M3 | fp8E5M2 | q4_0 | q8_0 | q4K | q5K | q6K
  deriving DecidableEq

structure ExportConfig where
  format : ExportFormat
  modelName : List Char
  modelVersion : List Char
  description : Option (List Char)
  quantizeLayers : Option (List (List Char))
  fp32Layers : List (List Char)

/-- A weight is its bits. -/
structure WeightTensor where
  name : List Char
  data : List UInt32
  shape : List Nat

inductive ExportError where
  | quantizeError (name reason : List Char)
  | writeError (reason : List Char)
  | empty
  deriving DecidableEq

/-- An export fails with an error or with a panic. -/
inductive ExportFailure where
  | error (error : ExportError)
  | panic
  deriving DecidableEq

/-- The encoders of one block. A channel is encoded by one byte for each weight and a scale. -/
structure Encoders where
  quantizeGroup : List UInt32 → Vector UInt8 18
  blockTQ2_0_g128 : List UInt32 → Vector UInt8 34
  blockFP8E4M3 : List UInt32 → Vector UInt8 34
  blockFP8E5M2 : List UInt32 → Vector UInt8 34
  blockQ4_0 : List UInt32 → Vector UInt8 18
  blockQ8_0 : List UInt32 → Vector UInt8 34
  blockQ4K : List UInt32 → Vector UInt8 144
  blockQ5K : List UInt32 → Vector UInt8 176
  blockQ6K : List UInt32 → Vector UInt8 210
  quantizeChannel : (weights : List UInt32) → Vector Int8 weights.length × UInt32

def decimal (number : Nat) : List Char := Nat.toDigits 10 number

/-- A zero weight fills the last block. -/
def padded (size : Nat) (data : List UInt32) : List UInt32 :=
  let remainder := data.length % size
  if remainder = 0 then data else data ++ List.replicate (size - remainder) 0

/-- Only whole blocks are encoded. -/
def quantizeBlocks {blockBytes : Nat} (size : Nat) (encode : List UInt32 → Vector UInt8 blockBytes)
    (reason : List Char) (weights : List UInt32) : Except (List Char) (List UInt8) :=
  if weights.length % size ≠ 0 then .error reason
  else
    let numBlocks := weights.length / size
    .ok ((List.range numBlocks).flatMap fun index => (encode (slice weights (index * size) size)).toList)

/-- The blocks of a format whose errors name the format. -/
def quantizeNamed {blockBytes : Nat} (label : String) (size : Nat)
    (encode : List UInt32 → Vector UInt8 blockBytes) (weights : List UInt32) : Except (List Char) (List UInt8) :=
  quantizeBlocks size encode ("k-quant error: ".toList ++ label.toList ++ " quantize: input len ".toList ++
    decimal weights.length ++ " not a multiple of ".toList ++ decimal size) weights

def quantizeQ1_0G128 (encoders : Encoders) (weights : List UInt32) : Except (List Char) (List UInt8) :=
  quantizeBlocks 128 encoders.quantizeGroup ("Input length ".toList ++ decimal weights.length ++
    " is not a multiple of GROUP_SIZE (128)".toList) weights

def quantizeTQ2_0_g128 (encoders : Encoders) (data : List UInt32) : Except (List Char) (List UInt8) :=
  quantizeNamed "TQ2_0_g128" 128 encoders.blockTQ2_0_g128 (padded 128 data)

def quantizeFP8E4M3 (encoders : Encoders) : List UInt32 → Except (List Char) (List UInt8) :=
  quantizeNamed "FP8 E4M3" 32 encoders.blockFP8E4M3

def quantizeFP8E5M2 (encoders : Encoders) : List UInt32 → Except (List Char) (List UInt8) :=
  quantizeNamed "FP8 E5M2" 32 encoders.blockFP8E5M2

def quantizeQ4_0 (encoders : Encoders) : List UInt32 → Except (List Char) (List UInt8) :=
  quantizeNamed "Q4_0" 32 encoders.blockQ4_0

def quantizeQ8_0 (encoders : Encoders) : List UInt32 → Except (List Char) (List UInt8) :=
  quantizeNamed "Q8_0" 32 encoders.blockQ8_0

def quantizeQ4K (encoders : Encoders) : List UInt32 → Except (List Char) (List UInt8) :=
  quantizeNamed "Q4_K" 256 encoders.blockQ4K

def quantizeQ5K (encoders : Encoders) : List UInt32 → Except (List Char) (List UInt8) :=
  quantizeNamed "Q5_K" 256 encoders.blockQ5K

def quantizeQ6K (encoders : Encoders) : List UInt32 → Except (List Char) (List UInt8) :=
  quantizeNamed "Q6_K" 256 encoders.blockQ6K

/-- The values of all channels and the scale of each. -/
structure Int8Tensor where
  data : List Int8
  scales : List UInt32

def quantizePerChannel (encoders : Encoders) (weights : List UInt32) (numChannels : Nat) :
    Except (List Char) Int8Tensor :=
  if weights.isEmpty then .error "Empty weight tensor".toList
  else if weights.length % numChannels ≠ 0 then
    .error ("Number of weights ".toList ++ decimal weights.length ++ " not divisible by num_channels ".toList ++
      decimal numChannels)
  else
    let channelSize := weights.length / numChannels
    let chunks := (List.range (weights.length / channelSize)).map fun index =>
      slice weights (index * channelSize) channelSize
    .ok ⟨chunks.flatMap fun chunk => (encoders.quantizeChannel chunk).1.toList,
      chunks.map fun chunk => (encoders.quantizeChannel chunk).2⟩

/-- A weight that is exempt, or not on a list of weights to quantize, is kept. -/
def shouldKeepFp32 (name : List Char) (config : ExportConfig) : Bool :=
  if config.fp32Layers.any (name == ·) then true
  else
    match config.quantizeLayers with
    | some allowed => !allowed.any (name == ·)
    | none => false

def effectiveFormat (name : List Char) (config : ExportConfig) : ExportFormat :=
  if shouldKeepFp32 name config then .float32 else config.format

/-- The first dimension counts the channels. -/
def WeightTensor.numChannels (tensor : WeightTensor) : Nat := max (tensor.shape.head?.getD 1) 1

def quantized (tensor : WeightTensor) (tensorType : TensorType) (step : Except (List Char) (List UInt8)) :
    Except ExportError (List UInt8 × TensorType) :=
  match step with
  | .error reason => .error (.quantizeError tensor.name reason)
  | .ok bytes => .ok (bytes, tensorType)

def encodeTensor (encoders : Encoders) (tensor : WeightTensor) (config : ExportConfig) :
    Except ExportError (List UInt8 × TensorType) :=
  match effectiveFormat tensor.name config with
  | .float32 => .ok (tensor.data.flatMap fun weight => leBytes 4 weight.toNat, .f32)
  | .q1_0G128 => quantized tensor .q1_0G128 (quantizeQ1_0G128 encoders (padded 128 tensor.data))
  | .int8PerChannel => quantized tensor .f32 do
      let int8 ← quantizePerChannel encoders tensor.data tensor.numChannels
      return int8.data.map Int8.toUInt8 ++ int8.scales.flatMap fun scale => leBytes 4 scale.toNat
  | .ternaryG128 => quantized tensor .tq2_0_g128 (quantizeTQ2_0_g128 encoders tensor.data)
  | .fp8E4M3 => quantized tensor .f8_E4M3 (quantizeFP8E4M3 encoders (padded 32 tensor.data))
  | .fp8E5M2 => quantized tensor .f8_E5M2 (quantizeFP8E5M2 encoders (padded 32 tensor.data))
  | .q4_0 => quantized tensor .q4_0 (quantizeQ4_0 encoders (padded 32 tensor.data))
  | .q8_0 => quantized tensor .q8_0 (quantizeQ8_0 encoders (padded 32 tensor.data))
  | .q4K => quantized tensor .q4_K (quantizeQ4K encoders (padded 256 tensor.data))
  | .q5K => quantized tensor .q5_K (quantizeQ5K encoders (padded 256 tensor.data))
  | .q6K => quantized tensor .q6_K (quantizeQ6K encoders (padded 256 tensor.data))

def ExportFormat.label : ExportFormat → String
  | float32 => "F32"
  | q1_0G128 => "Q1_0G128"
  | int8PerChannel => "INT8_PER_CHANNEL"
  | ternaryG128 => "TQ2_0_g128"
  | fp8E4M3 => "F8_E4M3"
  | fp8E5M2 => "F8_E5M2"
  | q4_0 => "Q4_0"
  | q8_0 => "Q8_0"
  | q4K => "Q4_K"
  | q5K => "Q5_K"
  | q6K => "Q6_K"

def standardMetadata (config : ExportConfig) : GgufWriter :=
  let writer := GgufWriter.new.addMetadata "general.name".toList (.str config.modelName)
  let writer := writer.addMetadata "general.version".toList (.str config.modelVersion)
  let writer := match config.description with
    | some desc => writer.addMetadata "general.description".toList (.str desc)
    | none => writer
  writer.addMetadata "general.quantization_version".toList (.str config.format.label.toList)

/-- The elements of an INT8 blob are counted as if they were floats of four bytes. -/
def exportedShape (tensor : WeightTensor) (config : ExportConfig) (bytes : List UInt8) : List UInt64 :=
  if config.format = .int8PerChannel ∧ shouldKeepFp32 tensor.name config = false then
    [UInt64.ofNat (bytes.length / 4)]
  else tensor.shape.map UInt64.ofNat

def exportTensor (encoders : Encoders) (config : ExportConfig) (writer : GgufWriter) (tensor : WeightTensor) :
    Except ExportError GgufWriter :=
  if tensor.data.isEmpty then .ok writer
  else do
    let (bytes, tensorType) ← encodeTensor encoders tensor config
    return writer.addTensor ⟨tensor.name, exportedShape tensor config bytes, tensorType, bytes⟩

/-- The writer after all metadata and all tensors are added. -/
def exportWriter (encoders : Encoders) (tensors : List WeightTensor) (config : ExportConfig)
    (archMetadata : List (List Char × MetadataWriteValue)) : Except ExportError GgufWriter :=
  if tensors.isEmpty then .error .empty
  else
    let writer := archMetadata.foldl (fun writer entry => writer.addMetadata entry.1 entry.2)
      (standardMetadata config)
    tensors.foldlM (exportTensor encoders config) writer

def ExportFailure.ofWriter : WriteFailure → ExportFailure
  | .dataSizeMismatch name expected got => .error (.writeError ("Tensor data size mismatch for ".toList ++ name ++
      ": expected ".toList ++ decimal expected ++ ", got ".toList ++ decimal got))
  | .panic => .panic

def exportToGguf (build : Build) (encoders : Encoders) (tensors : List WeightTensor) (config : ExportConfig)
    (archMetadata : List (List Char × MetadataWriteValue)) : Except ExportFailure (List UInt8) := do
  let writer ← (exportWriter encoders tensors config archMetadata).mapError .error
  (writer.toBytes build).mapError .ofWriter

/-- The number of blocks is rounded up. -/
def blocksSize (size blockBytes elements : Nat) : Nat := (elements + size - 1) / size * blockBytes

def estimateTensorSize (tensor : WeightTensor) (config : ExportConfig) : Nat :=
  if tensor.data.isEmpty then 0
  else
    match effectiveFormat tensor.name config with
    | .float32 => tensor.data.length * 4
    | .q1_0G128 => blocksSize 128 18 tensor.data.length
    | .int8PerChannel => tensor.data.length + tensor.numChannels * 4
    | .ternaryG128 => blocksSize 128 34 tensor.data.length
    | .fp8E4M3 | .fp8E5M2 => blocksSize 32 34 tensor.data.length
    | .q4_0 => blocksSize 32 18 tensor.data.length
    | .q8_0 => blocksSize 32 34 tensor.data.length
    | .q4K => blocksSize 256 144 tensor.data.length
    | .q5K => blocksSize 256 176 tensor.data.length
    | .q6K => blocksSize 256 210 tensor.data.length

def estimateExportSize (tensors : List WeightTensor) (config : ExportConfig) : Nat :=
  (tensors.map fun tensor => estimateTensorSize tensor config).sum

end Pictor.Export
