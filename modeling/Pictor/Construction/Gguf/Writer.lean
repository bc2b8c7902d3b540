import Pictor.Construction.Gguf.Reader
import Pictor.Library.Appending

namespace Pictor.Gguf
open Appending BuildArith LittleEndian

inductive GgufType where
  | uint8 | int8 | uint16 | int16 | uint32 | int32 | float32 | bool | string | array | uint64 | int64 | float64

def GgufType.code : GgufType → UInt32
  | uint8 => 0
  | int8 => 1
  | uint16 => 2
  | int16 => 3
  | uint32 => 4
  | int32 => 5
  | float32 => 6
  | bool => 7
  | string => 8
  | array => 9
  | uint64 => 10
  | int64 => 11
  | float64 => 12

/-- A float is its bits. -/
inductive MetadataWriteValue where
  | u32 (value : UInt32)
  | i32 (value : Int32)
  | f32 (bits : UInt32)
  | f64 (bits : UInt64)
  | u64 (value : UInt64)
  | bool (value : Bool)
  | str (value : List Char)
  | arrayStr (items : List (List Char))
  | arrayF32 (items : List UInt32)
  | arrayU32 (items : List UInt32)

inductive TensorType where
  | f32 | f16 | q4_0 | bf16 | q8_0 | q4_K | q5_K | q6_K | tq2_0 | q1_0G128 | tq2_0_g128 | f8_E4M3 | f8_E5M2
  deriving DecidableEq

/-- A call fails with a wrong size of tensor data or with a panic. The output is a vector, which takes all bytes. -/
inductive WriteFailure where
  | dataSizeMismatch (name : List Char) (expected got : Nat)
  | panic
  deriving DecidableEq

namespace TensorType

def code : TensorType → UInt32
  | f32 => 0
  | f16 => 1
  | q4_0 => 2
  | bf16 => 30
  | q8_0 => 8
  | q4_K => 12
  | q5_K => 13
  | q6_K => 14
  | tq2_0 => 35
  | q1_0G128 => 41
  | tq2_0_g128 => 42
  | f8_E4M3 => 43
  | f8_E5M2 => 44

def blockSize : TensorType → UInt64
  | f32 | f16 | bf16 => 1
  | q4_0 | q8_0 => 32
  | q1_0G128 => 128
  | tq2_0_g128 => 128
  | tq2_0 | q4_K | q5_K | q6_K => 256
  | f8_E4M3 | f8_E5M2 => 32

def blockBytes : TensorType → UInt64
  | f32 => 4
  | f16 | bf16 => 2
  | q4_0 => 18
  | q8_0 => 34
  | q4_K => 144
  | q5_K => 176
  | q6_K => 210
  | q1_0G128 => 18
  | tq2_0_g128 => 34
  | tq2_0 => 66
  | f8_E4M3 | f8_E5M2 => 34

def expectedBytes (build : Build) (type : TensorType) (elementCount : UInt64) : Except WriteFailure UInt64 :=
  let numBlocks := TensorInfo.divCeil elementCount type.blockSize
  build.mul .panic numBlocks type.blockBytes

end TensorType

structure TensorEntry where
  name : List Char
  shape : List UInt64
  tensorType : TensorType
  data : List UInt8

/-- The bytes that the shape and the type of a tensor take. -/
def TensorEntry.expected (build : Build) (entry : TensorEntry) : Except WriteFailure UInt64 := do
  let elementCount ← entry.shape.foldlM (fun count dim => build.mul .panic count dim) 1
  entry.tensorType.expectedBytes build elementCount

structure GgufWriter where
  metadata : List (List Char × MetadataWriteValue)
  tensors : List TensorEntry
  alignment : Nat

abbrev Writing := Append WriteFailure UInt8

def writeLeU32 (value : UInt32) : Writing Unit := writeAll (leBytes 4 value.toNat)

def writeLeU64 (value : UInt64) : Writing Unit := writeAll (leBytes 8 value.toNat)

/-- A writer of a part returns the number of its bytes. -/
def writeString (text : List Char) : Writing Nat := do
  let bytes := Utf8.encode text
  writeLeU64 (UInt64.ofNat bytes.length)
  writeAll bytes
  return 8 + bytes.length

def writeMetadataValue : MetadataWriteValue → Writing Nat
  | .u32 value => do
      writeLeU32 GgufType.uint32.code
      writeLeU32 value
      return 8
  | .i32 value => do
      writeLeU32 GgufType.int32.code
      writeLeU32 value.toUInt32
      return 8
  | .f32 bits => do
      writeLeU32 GgufType.float32.code
      writeLeU32 bits
      return 8
  | .f64 bits => do
      writeLeU32 GgufType.float64.code
      writeLeU64 bits
      return 12
  | .u64 value => do
      writeLeU32 GgufType.uint64.code
      writeLeU64 value
      return 12
  | .bool value => do
      writeLeU32 GgufType.bool.code
      writeAll [if value then 1 else 0]
      return 5
  | .str value => do
      writeLeU32 GgufType.string.code
      let size ← writeString value
      return 4 + size
  | .arrayStr items => do
      writeLeU32 GgufType.array.code
      writeLeU32 GgufType.string.code
      writeLeU64 (UInt64.ofNat items.length)
      items.foldlM (fun total item => do
        let size ← writeString item
        return total + size) 16
  | .arrayF32 items => do
      writeLeU32 GgufType.array.code
      writeLeU32 GgufType.float32.code
      writeLeU64 (UInt64.ofNat items.length)
      items.foldlM (fun total bits => do
        writeLeU32 bits
        return total + 4) 16
  | .arrayU32 items => do
      writeLeU32 GgufType.array.code
      writeLeU32 GgufType.uint32.code
      writeLeU64 (UInt64.ofNat items.length)
      items.foldlM (fun total value => do
        writeLeU32 value
        return total + 4) 16

/-- No padding is written for an alignment of zero. -/
def padToAlignment (pos alignment : Nat) : Writing Nat :=
  if alignment = 0 then pure 0
  else
    let remainder := pos % alignment
    if remainder = 0 then pure 0
    else do
      let pad := alignment - remainder
      writeAll (List.replicate pad 0)
      return pad

namespace GgufWriter

def new : GgufWriter := ⟨[], [], 32⟩

def addMetadata (writer : GgufWriter) (key : List Char) (value : MetadataWriteValue) : GgufWriter :=
  { writer with metadata := writer.metadata ++ [(key, value)] }

def addTensor (writer : GgufWriter) (entry : TensorEntry) : GgufWriter :=
  { writer with tensors := writer.tensors ++ [entry] }

def setAlignment (writer : GgufWriter) (alignment : Nat) : GgufWriter := { writer with alignment }

/-- An alignment other than the default is stored, unless an alignment is stored already. -/
def alignmentEntry (writer : GgufWriter) : Option (List Char × MetadataWriteValue) :=
  let hasAlignment := writer.metadata.any (·.1 = alignmentKey)
  if !hasAlignment ∧ writer.alignment ≠ 32 then
    some (alignmentKey, .u32 (UInt32.ofNat writer.alignment))
  else none

def writeEntry (pos : Nat) (entry : List Char × MetadataWriteValue) : Writing Nat := do
  let keySize ← writeString entry.1
  let pos := pos + keySize
  let valueSize ← writeMetadataValue entry.2
  return pos + valueSize

/-- The offset of each tensor is the sum of the sizes before it. -/
def dataOffsets (build : Build) (tensors : List TensorEntry) : Except WriteFailure (List UInt64 × UInt64) :=
  tensors.foldlM (fun (dataOffsets, runningOffset) entry => do
    let expected ← entry.expected build
    let next ← build.add .panic runningOffset expected
    return (dataOffsets ++ [runningOffset], next)) ([], 0)

def writeTensorInfo (build : Build) (pos : Nat) (entry : TensorEntry) (offset : UInt64) : Writing Nat := do
  let expected ← (entry.expected build : Except WriteFailure UInt64)
  if entry.data.length ≠ expected.toNat then
    throw (.dataSizeMismatch entry.name expected.toNat entry.data.length)
  else do
    let nameSize ← writeString entry.name
    let pos := pos + nameSize
    writeLeU32 (UInt32.ofNat entry.shape.length)
    let pos := pos + 4
    let pos ← entry.shape.foldlM (fun pos dim => do
      writeLeU64 dim
      return pos + 8) pos
    writeLeU32 entry.tensorType.code
    let pos := pos + 4
    writeLeU64 offset
    return pos + 8

def write (build : Build) (writer : GgufWriter) : Writing Nat := do
  let entries := writer.alignmentEntry.toList ++ writer.metadata
  writeLeU32 ggufMagic
  writeLeU32 3
  writeLeU64 (UInt64.ofNat writer.tensors.length)
  writeLeU64 (UInt64.ofNat entries.length)
  let pos ← entries.foldlM writeEntry 24
  let (dataOffsets, _) ← (dataOffsets build writer.tensors : Except WriteFailure (List UInt64 × UInt64))
  let pos ← (writer.tensors.zip dataOffsets).foldlM (fun pos (entry, offset) =>
    writeTensorInfo build pos entry offset) pos
  let pad ← padToAlignment pos writer.alignment
  let pos := pos + pad
  writer.tensors.foldlM (fun pos entry => do
    writeAll entry.data
    return pos + entry.data.length) pos

def toBytes (build : Build) (writer : GgufWriter) : Except WriteFailure (List UInt8) := do
  let (_, buf) ← writer.write build []
  return buf

end GgufWriter

end Pictor.Gguf
