import Pictor.Construction.Gguf.Reader
import Pictor.Library.Incremental

namespace Pictor.Gguf
open BuildArith Incremental Slice

inductive StreamState where
  | readingHeader
  | readingMetadata (remaining : Nat)
  | readingTensorInfo (remaining : Nat)
  | readingTensorData
  | complete
  deriving DecidableEq

/-- The values are those of the cursor reader. -/
abbrev GgufValue := MetadataValue

/-- Dimensions after the fourth one are dropped. -/
structure StreamedTensorInfo where
  name : List Char
  nDims : UInt32
  dims : Fin 4 → UInt64
  tensorType : GgufTensorType
  offset : UInt64

structure StreamedGguf where
  version : UInt32
  metadata : List (List Char × GgufValue)
  tensorInfos : List StreamedTensorInfo
  dataOffset : UInt64

structure GgufStreamParser where
  state : StreamState
  buffer : List UInt8
  result : StreamedGguf
  bytesConsumed : Nat
  totalMetadata : Nat
  totalTensors : Nat

def headerSize : Nat := 24

/-- The bytes of a field, once they are all in the buffer. -/
def tryField (buf : List UInt8) (offset size : Nat) : Answer BonsaiError (List UInt8) :=
  if offset + size > buf.length then pending else pure (slice buf offset size)

def tryReadGgufString (buf : List UInt8) (offset : Nat) : Answer BonsaiError (List Char × Nat) := do
  let len := readU64 (← tryField buf offset 8)
  if len.toNat > maxStringLen then failed (.invalidString offset)
  else do
    let strEnd := offset + 8 + len.toNat
    let bytes ← tryField buf (offset + 8) len.toNat
    match Utf8.decode bytes with
    | some text => pure (text, strEnd)
    | none => failed (.invalidString offset)

/-- Several values one after another. -/
def tryMany {Value : Type} (read : Nat → Answer BonsaiError (Value × Nat)) :
    Nat → Nat → Answer BonsaiError (List Value × Nat)
  | 0, pos => pure ([], pos)
  | count + 1, pos => do
      let (value, pos) ← read pos
      let (values, pos) ← tryMany read count pos
      return (value :: values, pos)

/-- A value of a fixed number of bytes. -/
def tryFixed (buf : List UInt8) (offset size : Nat) (value : List UInt8 → GgufValue) :
    Answer BonsaiError (GgufValue × Nat) := do
  let bytes ← tryField buf offset size
  return (value bytes, offset + size)

/-- The depth bounds the nesting of arrays. No byte is left where it ends. -/
def tryReadValue (buf : List UInt8) : Nat → Nat → GgufValueType → Answer BonsaiError (GgufValue × Nat)
  | _, offset, .uint8 => tryFixed buf offset 1 fun bytes => .uint8 (readU8 bytes)
  | _, offset, .int8 => tryFixed buf offset 1 fun bytes => .int8 (readU8 bytes).toInt8
  | _, offset, .uint16 => tryFixed buf offset 2 fun bytes => .uint16 (readU16 bytes)
  | _, offset, .int16 => tryFixed buf offset 2 fun bytes => .int16 (readU16 bytes).toInt16
  | _, offset, .uint32 => tryFixed buf offset 4 fun bytes => .uint32 (readU32 bytes)
  | _, offset, .int32 => tryFixed buf offset 4 fun bytes => .int32 (readU32 bytes).toInt32
  | _, offset, .float32 => tryFixed buf offset 4 fun bytes => .float32 (readU32 bytes)
  | _, offset, .bool => tryFixed buf offset 1 fun bytes => .bool (readU8 bytes ≠ 0)
  | _, offset, .string => do
      let (text, pos) ← tryReadGgufString buf offset
      return (.string text, pos)
  | 0, _, .array => pending
  | depth + 1, offset, .array => do
      let bytes ← tryField buf offset 12
      let elemType ← answered (GgufValueType.fromId (readU32 (bytes.take 4)))
      let count := readU64 (bytes.drop 4)
      if count.toNat > maxArrayCount then
        failed (.invalidMetadata [] ("array count too large: ".toList ++ Nat.toDigits 10 count.toNat))
      else do
        let (values, pos) ← tryMany (fun pos => tryReadValue buf depth pos elemType) count.toNat (offset + 12)
        return (.array values, pos)
  | _, offset, .uint64 => tryFixed buf offset 8 fun bytes => .uint64 (readU64 bytes)
  | _, offset, .int64 => tryFixed buf offset 8 fun bytes => .int64 (readU64 bytes).toInt64
  | _, offset, .float64 => tryFixed buf offset 8 fun bytes => .float64 (readU64 bytes)

/-- A key, the type of its value, and the value. -/
def tryReadEntry (buf : List UInt8) : Answer BonsaiError ((List Char × GgufValue) × Nat) := do
  let (key, pos) ← tryReadGgufString buf 0
  let valueTypeId := readU32 (← tryField buf pos 4)
  let valueType ← answered (GgufValueType.fromId valueTypeId)
  let pos := pos + 4
  let (value, pos) ← tryReadValue buf (buf.length - pos) pos valueType
  return ((key, value), pos)

def tryReadTensorInfo (buf : List UInt8) : Answer BonsaiError (StreamedTensorInfo × Nat) := do
  let (name, pos) ← tryReadGgufString buf 0
  let nDims := readU32 (← tryField buf pos 4)
  let pos := pos + 4
  if nDims.toNat > maxTensorDims then
    failed (.invalidMetadata name ("tensor has too many dimensions: ".toList ++ Nat.toDigits 10 nDims.toNat))
  else do
    let bytes ← tryField buf pos (nDims.toNat * 8)
    let dims : Fin 4 → UInt64 := fun i =>
      if i.val < nDims.toNat then readU64 (slice bytes (i.val * 8) 8) else 0
    let pos := pos + nDims.toNat * 8
    let typeId := readU32 (← tryField buf pos 4)
    let tensorType ← answered (GgufTensorType.fromId typeId)
    let pos := pos + 4
    let offset := readU64 (← tryField buf pos 8)
    let pos := pos + 8
    return (⟨name, nDims, dims, tensorType, offset⟩, pos)

/-- The version, the number of tensors, and the number of metadata entries. -/
def tryReadHeader (buf : List UInt8) : Answer BonsaiError ((UInt32 × UInt64 × UInt64) × Nat) := do
  let bytes ← tryField buf 0 headerSize
  let magic := readU32 (slice bytes 0 4)
  if magic ≠ ggufMagic then failed (.invalidMagic magic)
  else do
    let version := readU32 (slice bytes 4 4)
    if version ≠ 2 ∧ version ≠ 3 then failed (.unsupportedVersion version)
    else do
      let tensorCount := readU64 (slice bytes 8 8)
      let metadataKvCount := readU64 (slice bytes 16 8)
      return ((version, tensorCount, metadataKvCount), headerSize)

/-- An error of the parser is no panic. -/
def reported {Result : Type} (answer : Answer BonsaiError Result) : Answer Failure Result :=
  OptionT.mk (returned answer.run)

namespace GgufStreamParser

def new : GgufStreamParser := ⟨.readingHeader, [], ⟨0, [], [], 0⟩, 0, 0, 0⟩

/-- The bytes before a position leave the buffer. -/
def consume (parser : GgufStreamParser) (pos : Nat) : GgufStreamParser :=
  { parser with bytesConsumed := parser.bytesConsumed + pos, buffer := parser.buffer.drop pos }

def tryParseHeader (parser : GgufStreamParser) : Answer BonsaiError GgufStreamParser := do
  let ((version, tensorCount, metadataKvCount), pos) ← tryReadHeader parser.buffer
  return { parser.consume pos with
    result := { parser.result with version := version }
    totalMetadata := metadataKvCount.toNat
    totalTensors := tensorCount.toNat
    state := .readingMetadata metadataKvCount.toNat }

def tryParseOneMetadata (parser : GgufStreamParser) (remaining : Nat) :
    Answer BonsaiError GgufStreamParser := do
  let (entry, pos) ← tryReadEntry parser.buffer
  return { parser.consume pos with
    result := { parser.result with metadata := parser.result.metadata ++ [entry] }
    state := .readingMetadata (remaining - 1) }

def transitionToTensorInfo (parser : GgufStreamParser) : GgufStreamParser :=
  { parser with state := .readingTensorInfo parser.totalTensors }

def tryParseOneTensorInfo (parser : GgufStreamParser) (remaining : Nat) :
    Answer BonsaiError GgufStreamParser := do
  let (info, pos) ← tryReadTensorInfo parser.buffer
  return { parser.consume pos with
    result := { parser.result with tensorInfos := parser.result.tensorInfos ++ [info] }
    state := .readingTensorInfo (remaining - 1) }

/-- The first entry of the alignment, when it is a 32-bit unsigned number. -/
def alignment (metadata : List (List Char × GgufValue)) : UInt64 :=
  match metadata.find? (·.1 = alignmentKey) with
  | some (_, .uint32 value) => value.toUInt64
  | _ => defaultAlignment

def finalize (build : Build) (parser : GgufStreamParser) : Except Failure GgufStreamParser := do
  let aligned ← alignOffset build (UInt64.ofNat parser.bytesConsumed) (alignment parser.result.metadata)
  return { parser with
    result := { parser.result with dataOffset := aligned }
    state := .readingTensorData }

/-- One pass of the loop. It waits when the buffer is too short, and when the parser is complete. -/
def step (build : Build) (parser : GgufStreamParser) : Answer Failure GgufStreamParser :=
  match parser.state with
  | .readingHeader => reported parser.tryParseHeader
  | .readingMetadata remaining =>
      if remaining = 0 then pure parser.transitionToTensorInfo
      else reported (parser.tryParseOneMetadata remaining)
  | .readingTensorInfo remaining =>
      if remaining = 0 then answered (parser.finalize build)
      else reported (parser.tryParseOneTensorInfo remaining)
  | .readingTensorData | .complete => pending

/-- The stages that are left, and the bytes that are left. -/
def work (parser : GgufStreamParser) : Nat :=
  parser.buffer.length + match parser.state with
    | .readingHeader => 3
    | .readingMetadata _ => 2
    | .readingTensorInfo _ => 1
    | .readingTensorData | .complete => 0

def extend (parser : GgufStreamParser) (data : List UInt8) : GgufStreamParser :=
  { parser with buffer := parser.buffer ++ data }

/-- The work bounds the number of passes of the loop. -/
def feed (build : Build) (parser : GgufStreamParser) (data : List UInt8) :
    Except Failure (Nat × GgufStreamParser) :=
  if data = [] then .ok (0, parser)
  else do
    let parser ← run (step build) work (parser.extend data)
    return (data.length, parser)

/-- The chunks are fed in their order up to the first failure. -/
def feedAll (build : Build) (parser : GgufStreamParser) (chunks : List (List UInt8)) :
    Except Failure GgufStreamParser :=
  chunks.foldlM (fun parser chunk => (feed build parser chunk).map Prod.snd) parser

def isComplete (parser : GgufStreamParser) : Bool :=
  parser.state = .readingTensorData ∨ parser.state = .complete

def finish (parser : GgufStreamParser) : Except BonsaiError StreamedGguf :=
  if !parser.isComplete then .error (.unexpectedEof parser.bytesConsumed) else .ok parser.result

/-- The result of a parser that gets the whole data at once. -/
def ofWhole (build : Build) (data : List UInt8) : Except Failure StreamedGguf := do
  let (_, parser) ← feed build new data
  returned parser.finish

end GgufStreamParser

end Pictor.Gguf
