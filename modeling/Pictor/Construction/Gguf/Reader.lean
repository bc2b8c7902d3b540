import Pictor.Library.BuildArith
import Pictor.Library.InsertAll
import Pictor.Library.Slice
import Pictor.Library.Utf8

namespace Pictor.Gguf
open BuildArith LittleEndian

inductive BonsaiError where
  | invalidMagic (magic : UInt32)
  | unsupportedVersion (version : UInt32)
  | invalidMetadata (key reason : List Char)
  | tensorNotFound (name : List Char)
  | unsupportedQuantType (typeId : UInt32)
  | mmapError
  | unexpectedEof (offset : Nat)
  | invalidString (offset : Nat)
  deriving DecidableEq

/-- A call fails with an error or with a panic. -/
inductive Failure where
  | error (error : BonsaiError)
  | panic
  deriving DecidableEq

/-- A call that returns an error does not panic. -/
def returned {Result : Type} : Except BonsaiError Result → Except Failure Result
  | .ok result => .ok result
  | .error error => .error (.error error)

inductive GgufTensorType where
  | f32 | f16 | q4_0 | q4_1 | q5_0 | q5_1 | q8_0 | q8_1 | q2_K | q3_K | q4_K | q5_K | q6_K | q8_K | bf16
  | tq2_0 | q1_0_g128 | tq2_0_g128 | f8_E4M3 | f8_E5M2
  deriving DecidableEq

namespace GgufTensorType

def fromId (id : UInt32) : Except BonsaiError GgufTensorType :=
  match id.toNat with
  | 0 => .ok .f32
  | 1 => .ok .f16
  | 2 => .ok .q4_0
  | 3 => .ok .q4_1
  | 6 => .ok .q5_0
  | 7 => .ok .q5_1
  | 8 => .ok .q8_0
  | 9 => .ok .q8_1
  | 10 => .ok .q2_K
  | 11 => .ok .q3_K
  | 12 => .ok .q4_K
  | 13 => .ok .q5_K
  | 14 => .ok .q6_K
  | 15 => .ok .q8_K
  | 30 => .ok .bf16
  | 35 => .ok .tq2_0
  | 41 => .ok .q1_0_g128
  | 42 => .ok .tq2_0_g128
  | 43 => .ok .f8_E4M3
  | 44 => .ok .f8_E5M2
  | _ => .error (.unsupportedQuantType id)

/-- The number of elements in a block. -/
def blockSize : GgufTensorType → UInt64
  | f32 | f16 | bf16 => 1
  | q4_0 | q4_1 | q5_0 | q5_1 | q8_0 | q8_1 => 32
  | q2_K | q3_K | q4_K | q5_K | q6_K | q8_K => 256
  | q1_0_g128 => 128
  | tq2_0_g128 => 128
  | tq2_0 => 256
  | f8_E4M3 | f8_E5M2 => 32

/-- The number of bytes in a block. -/
def blockBytes : GgufTensorType → UInt64
  | f32 => 4
  | f16 | bf16 => 2
  | q4_0 => 18
  | q4_1 => 20
  | q5_0 => 22
  | q5_1 => 24
  | q8_0 => 34
  | q8_1 => 40
  | q2_K => 84
  | q3_K => 110
  | q4_K => 144
  | q5_K => 176
  | q6_K => 210
  | q8_K => 292
  | q1_0_g128 => 18
  | tq2_0_g128 => 34
  | tq2_0 => 66
  | f8_E4M3 | f8_E5M2 => 34

end GgufTensorType

inductive GgufValueType where
  | uint8 | int8 | uint16 | int16 | uint32 | int32 | float32 | bool | string | array | uint64 | int64 | float64
  deriving DecidableEq

def GgufValueType.fromId (id : UInt32) : Except BonsaiError GgufValueType :=
  match id.toNat with
  | 0 => .ok .uint8
  | 1 => .ok .int8
  | 2 => .ok .uint16
  | 3 => .ok .int16
  | 4 => .ok .uint32
  | 5 => .ok .int32
  | 6 => .ok .float32
  | 7 => .ok .bool
  | 8 => .ok .string
  | 9 => .ok .array
  | 10 => .ok .uint64
  | 11 => .ok .int64
  | 12 => .ok .float64
  | _ => .error (.invalidMetadata [] ("unknown value type id: ".toList ++ Nat.toDigits 10 id.toNat))

/-- A float is its bits. -/
inductive MetadataValue where
  | uint8 (value : UInt8)
  | int8 (value : Int8)
  | uint16 (value : UInt16)
  | int16 (value : Int16)
  | uint32 (value : UInt32)
  | int32 (value : Int32)
  | float32 (bits : UInt32)
  | bool (value : Bool)
  | string (value : List Char)
  | array (values : List MetadataValue)
  | uint64 (value : UInt64)
  | int64 (value : Int64)
  | float64 (bits : UInt64)

def MetadataValue.asU32 : MetadataValue → Option UInt32
  | uint32 value => some value
  | uint64 value => if value.toNat < 2 ^ 32 then some (UInt32.ofNat value.toNat) else none
  | int32 value => if 0 ≤ value.toInt then some (UInt32.ofNat value.toInt.toNat) else none
  | _ => none

def readU8 (bytes : List UInt8) : UInt8 := UInt8.ofNat (ofLeBytes bytes)

def readU16 (bytes : List UInt8) : UInt16 := UInt16.ofNat (ofLeBytes bytes)

def readU32 (bytes : List UInt8) : UInt32 := UInt32.ofNat (ofLeBytes bytes)

def readU64 (bytes : List UInt8) : UInt64 := UInt64.ofNat (ofLeBytes bytes)

def ggufMagic : UInt32 := 0x46554747

def alignmentKey : List Char := "general.alignment".toList

def defaultAlignment : UInt64 := 32

def maxStringLen : Nat := 256 * 1024 * 1024

def maxArrayCount : Nat := 16 * 1024 * 1024

def maxTensorDims : Nat := 1024

/-- The next multiple of an alignment that is a power of two. -/
def alignOffset (build : Build) (offset alignment : UInt64) : Except Failure UInt64 := do
  let sum ← build.add .panic offset alignment
  let top ← build.sub .panic sum 1
  let low ← build.sub .panic alignment 1
  return top &&& ~~~low

example : alignOffset .debug 33 32 = .ok 64 := by decide

end Pictor.Gguf

namespace Pictor.Gguf
open BuildArith InsertAll Slice

/-- A cursor holds the bytes that are not read. -/
abbrev Cursor := StateT (List UInt8) (Except BonsaiError)

namespace Cursor

def readExact (size : Nat) : Cursor (List UInt8) := fun bytes =>
  if size ≤ bytes.length then .ok (bytes.take size, bytes.drop size) else .error .mmapError

def u8 : Cursor UInt8 := readU8 <$> readExact 1

def u16 : Cursor UInt16 := readU16 <$> readExact 2

def u32 : Cursor UInt32 := readU32 <$> readExact 4

def u64 : Cursor UInt64 := readU64 <$> readExact 8

/-- Several values one after another. -/
def many {Value : Type} (read : Cursor Value) : Nat → Cursor (List Value)
  | 0 => pure []
  | count + 1 => do
      let value ← read
      let values ← many read count
      return value :: values

end Cursor

open Cursor

def readGgufString : Cursor (List Char) := do
  let len ← u64
  if len.toNat > maxStringLen then throw (.invalidString 0)
  else do
    let buf ← readExact len.toNat
    match Utf8.decode buf with
    | some text => return text
    | none => throw (.invalidString 0)

/-- The depth bounds the nesting of arrays. No byte is left where it ends. -/
def readValue : Nat → GgufValueType → Cursor MetadataValue
  | _, .uint8 => .uint8 <$> u8
  | _, .int8 => do return .int8 (← u8).toInt8
  | _, .uint16 => .uint16 <$> u16
  | _, .int16 => do return .int16 (← u16).toInt16
  | _, .uint32 => .uint32 <$> u32
  | _, .int32 => do return .int32 (← u32).toInt32
  | _, .float32 => .float32 <$> u32
  | _, .bool => do return .bool ((← u8) ≠ 0)
  | _, .string => .string <$> readGgufString
  | 0, .array => throw .mmapError
  | depth + 1, .array => do
      let elemTypeId ← u32
      let elemType ← GgufValueType.fromId elemTypeId
      let count ← u64
      if count.toNat > maxArrayCount then throw (.invalidString 0)
      else .array <$> many (readValue depth elemType) count.toNat
  | _, .uint64 => .uint64 <$> u64
  | _, .int64 => do return .int64 (← u64).toInt64
  | _, .float64 => .float64 <$> u64

/-- The nesting is at most the number of bytes. -/
def readTyped (valueType : GgufValueType) : Cursor MetadataValue := fun bytes =>
  readValue bytes.length valueType bytes

def readKvPair : Cursor (List Char × MetadataValue) := do
  let key ← readGgufString
  let valueTypeId ← u32
  let valueType ← GgufValueType.fromId valueTypeId
  let value ← readTyped valueType
  return (key, value)

structure GgufHeader where
  version : UInt32
  tensorCount : UInt64
  metadataKvCount : UInt64
  deriving DecidableEq

/-- A read that fails leaves the cursor at the end of the data. -/
def headerField {Value : Type} (data : List UInt8) (read : Cursor Value) : Cursor Value := fun bytes =>
  (read bytes).mapError fun _ => .unexpectedEof data.length

def GgufHeader.parse (data : List UInt8) (offset : Nat) : Except BonsaiError (GgufHeader × Nat) := do
  let (magic, rest) ← (u32.run (data.drop offset)).mapError fun _ => .unexpectedEof offset
  if magic ≠ ggufMagic then throw (.invalidMagic magic)
  else do
    let (version, rest) ← (headerField data u32).run rest
    if version ≠ 2 ∧ version ≠ 3 then throw (.unsupportedVersion version)
    else do
      let (tensorCount, rest) ← (headerField data u64).run rest
      let (metadataKvCount, rest) ← (headerField data u64).run rest
      return (⟨version, tensorCount, metadataKvCount⟩, data.length - rest.length)

abbrev MetadataStore := AList fun _ : List Char => MetadataValue

def MetadataStore.parse (data : List UInt8) (offset : Nat) (count : UInt64) :
    Except BonsaiError (MetadataStore × Nat) := do
  let (entries, rest) ← (many readKvPair count.toNat).run (data.drop offset)
  return (insertAll entries ∅, data.length - rest.length)

structure TensorInfo where
  name : List Char
  shape : List UInt64
  tensorType : GgufTensorType
  offset : UInt64
  deriving DecidableEq

namespace TensorInfo

/-- The product starts at one and takes the dimensions from the left. -/
def elementCount (build : Build) (shape : List UInt64) : Except Failure UInt64 :=
  shape.foldlM (fun count dim => build.mul .panic count dim) 1

/-- The number of blocks is rounded up. -/
def divCeil (elements blockSize : UInt64) : UInt64 :=
  if elements % blockSize = 0 then elements / blockSize else elements / blockSize + 1

def dataSize (build : Build) (info : TensorInfo) : Except Failure UInt64 := do
  let elements ← elementCount build info.shape
  let numBlocks := divCeil elements info.tensorType.blockSize
  build.mul .panic numBlocks info.tensorType.blockBytes

end TensorInfo

abbrev TensorStore := AList fun _ : List Char => TensorInfo

def readTensorInfo : Cursor TensorInfo := do
  let name ← readGgufString
  let nDims ← u32
  if nDims.toNat > maxTensorDims then throw (.invalidString 0)
  else do
    let shape ← many u64 nDims.toNat
    let typeId ← u32
    let tensorType ← GgufTensorType.fromId typeId
    let offset ← u64
    return ⟨name, shape, tensorType, offset⟩

def TensorStore.parse (data : List UInt8) (offset : Nat) (count : UInt64) :
    Except BonsaiError (TensorStore × Nat) := do
  let (infos, rest) ← (many readTensorInfo count.toNat).run (data.drop offset)
  return (insertAll (infos.map fun info => (info.name, info)) ∅, data.length - rest.length)

structure GgufFile where
  header : GgufHeader
  metadata : MetadataStore
  tensors : TensorStore
  dataOffset : UInt64
  data : List UInt8

namespace GgufFile

/-- The alignment that the metadata store. -/
def alignment (metadata : MetadataStore) : UInt64 :=
  (((metadata.lookup alignmentKey).bind MetadataValue.asU32).getD
    defaultAlignment.toUInt32).toUInt64

def parse (build : Build) (data : List UInt8) : Except Failure GgufFile := do
  let (header, offset) ← returned (GgufHeader.parse data 0)
  let (metadata, offset) ← returned (MetadataStore.parse data offset header.metadataKvCount)
  let (tensors, offset) ← returned (TensorStore.parse data offset header.tensorCount)
  let dataOffset ← alignOffset build (UInt64.ofNat offset) (alignment metadata)
  return ⟨header, metadata, tensors, dataOffset, data⟩

/-- The bytes of a tensor. A slice whose end is before its start panics. -/
def tensorData (build : Build) (file : GgufFile) (name : List Char) : Except Failure (List UInt8) := do
  match file.tensors.lookup name with
  | none => throw (.error (.tensorNotFound name))
  | some info =>
      let start ← build.add .panic file.dataOffset info.offset
      let size ← info.dataSize build
      let stop ← build.add .panic start size
      if stop.toNat > file.data.length then throw (.error (.unexpectedEof stop.toNat))
      else if stop < start then throw .panic
      else return slice file.data start.toNat (stop.toNat - start.toNat)

end GgufFile

end Pictor.Gguf
