import Pictor.Construction.Gguf.Reader

namespace Pictor.Gguf
open LittleEndian

/-- The numbers of the value types in a file. -/
def GgufValueType.id : GgufValueType → Nat
  | uint8 => 0
  | int8 => 1
  | uint16 => 2
  | int16 => 3
  | uint32 => 4
  | int32 => 5
  | float32 => 6
  | bool => 7
  | string => 8
  | array => 9
  | uint64 => 10
  | int64 => 11
  | float64 => 12

/-- The numbers of the tensor types in a file. -/
def GgufTensorType.id : GgufTensorType → Nat
  | f32 => 0
  | f16 => 1
  | q4_0 => 2
  | q4_1 => 3
  | q5_0 => 6
  | q5_1 => 7
  | q8_0 => 8
  | q8_1 => 9
  | q2_K => 10
  | q3_K => 11
  | q4_K => 12
  | q5_K => 13
  | q6_K => 14
  | q8_K => 15
  | bf16 => 30
  | tq2_0 => 35
  | q1_0_g128 => 41
  | tq2_0_g128 => 42
  | f8_E4M3 => 43
  | f8_E5M2 => 44

/-- The size of a value of a fixed size, and the value of its bytes. -/
def GgufValueType.fixed : GgufValueType → Option (Nat × (List UInt8 → MetadataValue))
  | uint8 => some (1, fun bytes => .uint8 (readU8 bytes))
  | int8 => some (1, fun bytes => .int8 (readU8 bytes).toInt8)
  | uint16 => some (2, fun bytes => .uint16 (readU16 bytes))
  | int16 => some (2, fun bytes => .int16 (readU16 bytes).toInt16)
  | uint32 => some (4, fun bytes => .uint32 (readU32 bytes))
  | int32 => some (4, fun bytes => .int32 (readU32 bytes).toInt32)
  | float32 => some (4, fun bytes => .float32 (readU32 bytes))
  | bool => some (1, fun bytes => .bool (readU8 bytes ≠ 0))
  | string | array => none
  | uint64 => some (8, fun bytes => .uint64 (readU64 bytes))
  | int64 => some (8, fun bytes => .int64 (readU64 bytes).toInt64)
  | float64 => some (8, fun bytes => .float64 (readU64 bytes))

/-- A text stands behind its length. -/
def EncodesString (text : List Char) (bytes : List UInt8) : Prop :=
  (Utf8.encode text).length ≤ maxStringLen ∧
    bytes = leBytes 8 (Utf8.encode text).length ++ Utf8.encode text

/-- The items stand one after another. -/
def EncodesAll {Item : Type} (encodes : Item → List UInt8 → Prop) (items : List Item) (bytes : List UInt8) :
    Prop :=
  ∃ pieces, List.Forall₂ encodes items pieces ∧ bytes = pieces.flatten

/-- The bytes of a value do not name its type. An array names the type of its elements. -/
inductive EncodesValue : GgufValueType → MetadataValue → List UInt8 → Prop
  | fixed {type : GgufValueType} {size : Nat} {value : List UInt8 → MetadataValue} {bytes : List UInt8}
      (shape : type.fixed = some (size, value)) (full : bytes.length = size) :
      EncodesValue type (value bytes) bytes
  | string {text : List Char} {bytes : List UInt8} (encoded : EncodesString text bytes) :
      EncodesValue .string (.string text) bytes
  | array {type : GgufValueType} {values : List MetadataValue} {pieces : List (List UInt8)}
      (few : values.length ≤ maxArrayCount) (paired : values.length = pieces.length)
      (encoded : ∀ value piece, (value, piece) ∈ values.zip pieces → EncodesValue type value piece) :
      EncodesValue .array (.array values) (leBytes 4 type.id ++ leBytes 8 values.length ++ pieces.flatten)

/-- A key, the type of its value, and the value. -/
def EncodesEntry (entry : List Char × MetadataValue) (bytes : List UInt8) : Prop :=
  ∃ type key value, EncodesString entry.1 key ∧ EncodesValue type entry.2 value ∧
    bytes = key ++ leBytes 4 type.id ++ value

/-- A name, the dimensions behind their number, the type, and the offset. -/
def EncodesTensor (info : TensorInfo) (bytes : List UInt8) : Prop :=
  ∃ name, EncodesString info.name name ∧ info.shape.length ≤ maxTensorDims ∧
    bytes = name ++ leBytes 4 info.shape.length ++ info.shape.flatMap (fun dim => leBytes 8 dim.toNat) ++
      leBytes 4 info.tensorType.id ++ leBytes 8 info.offset.toNat

/-- What a file says before its tensor data. -/
structure Layout where
  version : UInt32
  metadata : List (List Char × MetadataValue)
  tensors : List TensorInfo

def EncodesHeader (header : GgufHeader) (bytes : List UInt8) : Prop :=
  (header.version = 2 ∨ header.version = 3) ∧
    bytes = leBytes 4 ggufMagic.toNat ++ leBytes 4 header.version.toNat ++
      leBytes 8 header.tensorCount.toNat ++ leBytes 8 header.metadataKvCount.toNat

/-- The header counts the entries and the tensors. -/
def EncodesLayout (layout : Layout) (bytes : List UInt8) : Prop :=
  ∃ header start metadata tensors, EncodesHeader header start ∧ header.version = layout.version ∧
    header.metadataKvCount.toNat = layout.metadata.length ∧ header.tensorCount.toNat = layout.tensors.length ∧
    EncodesAll EncodesEntry layout.metadata metadata ∧ EncodesAll EncodesTensor layout.tensors tensors ∧
    bytes = start ++ metadata ++ tensors

end Pictor.Gguf

namespace Pictor.Gguf
open LittleEndian List

theorem readU32_leBytes (value : UInt32) : readU32 (leBytes 4 value.toNat) = value := by
  rw [readU32, ofLeBytes_leBytes (by simpa using value.toNat_lt), UInt32.ofNat_toNat]

theorem readU64_leBytes (value : UInt64) : readU64 (leBytes 8 value.toNat) = value := by
  rw [readU64, ofLeBytes_leBytes (by simpa using value.toNat_lt), UInt64.ofNat_toNat]

theorem readU32_toNat {value : Nat} (fits : value < 2 ^ 32) : (readU32 (leBytes 4 value)).toNat = value := by
  rw [readU32, ofLeBytes_leBytes (by simpa using fits), UInt32.toNat_ofNat_of_lt' fits]

theorem readU64_toNat {value : Nat} (fits : value < 2 ^ 64) : (readU64 (leBytes 8 value)).toNat = value := by
  rw [readU64, ofLeBytes_leBytes (by simpa using fits), UInt64.toNat_ofNat_of_lt' fits]

variable {bytes : List UInt8} {type : GgufValueType} {Item : Type} {encodes : Item → List UInt8 → Prop} {item : Item}
  {items : List Item} {value : MetadataValue}

theorem leBytes_readU32 (full : bytes.length = 4) : leBytes 4 (readU32 bytes).toNat = bytes := by
  have small := ofLeBytes_lt bytes
  rw [full] at small
  rw [readU32, UInt32.toNat_ofNat_of_lt' small, ← full, leBytes_ofLeBytes]

theorem leBytes_readU64 (full : bytes.length = 8) : leBytes 8 (readU64 bytes).toNat = bytes := by
  have small := ofLeBytes_lt bytes
  rw [full] at small
  rw [readU64, UInt64.toNat_ofNat_of_lt' small, ← full, leBytes_ofLeBytes]

/-- A number of a type is read as this type only. -/
theorem valueType_fromId {id : UInt32} {type : GgufValueType} :
    GgufValueType.fromId id = .ok type ↔ id.toNat = type.id := by
  constructor
  · intro read
    rw [GgufValueType.fromId] at read
    split at read <;> cases read <;> assumption
  · intro same
    rw [GgufValueType.fromId, same]
    cases type <;> rfl

theorem tensorType_fromId {id : UInt32} {type : GgufTensorType} :
    GgufTensorType.fromId id = .ok type ↔ id.toNat = type.id := by
  constructor
  · intro read
    rw [GgufTensorType.fromId] at read
    split at read <;> cases read <;> assumption
  · intro same
    rw [GgufTensorType.fromId, same]
    cases type <;> rfl

theorem fixed_none (shape : type.fixed = none) : type = .string ∨ type = .array := by
  cases type with
  | string => exact Or.inl rfl
  | array => exact Or.inr rfl
  | _ => cases shape

theorem encodesAll_nil : EncodesAll encodes [] bytes ↔ bytes = [] := by
  constructor
  · rintro ⟨pieces, paired, rfl⟩
    cases paired
    rfl
  · rintro rfl
    exact ⟨[], List.Forall₂.nil, rfl⟩

theorem encodesAll_cons : EncodesAll encodes (item :: items) bytes ↔
      ∃ first rest, encodes item first ∧ EncodesAll encodes items rest ∧ bytes = first ++ rest := by
  constructor
  · rintro ⟨pieces, paired, rfl⟩
    cases paired with
    | cons head tail => exact ⟨_, _, head, ⟨_, tail, rfl⟩, flatten_cons⟩
  · rintro ⟨first, _, head, ⟨pieces, tail, rfl⟩, rfl⟩
    exact ⟨first :: pieces, List.Forall₂.cons head tail, flatten_cons.symm⟩

theorem encodesAll_concat {used last : List UInt8} (encoded : EncodesAll encodes items used) (final : encodes item last) :
    EncodesAll encodes (items ++ [item]) (used ++ last) := by
  induction items generalizing used with
  | nil =>
      rw [encodesAll_nil.mp encoded]
      exact encodesAll_cons.mpr ⟨last, [], final, encodesAll_nil.mpr rfl, (append_nil _).symm⟩
  | cons first items ih =>
      obtain ⟨front, rest, head, later, rfl⟩ := encodesAll_cons.mp encoded
      rw [append_assoc]
      exact encodesAll_cons.mpr ⟨front, rest ++ last, head, ih later, rfl⟩

theorem encodesAll_exact {encode : Item → List UInt8} :
    EncodesAll (fun item used => used = encode item) items bytes ↔ bytes = items.flatMap encode := by
  induction items generalizing bytes with
  | nil => exact encodesAll_nil
  | cons item items ih =>
      rw [encodesAll_cons, flatMap_cons]
      constructor
      · rintro ⟨_, rest, rfl, encoded, rfl⟩
        rw [ih.mp encoded]
      · rintro rfl
        exact ⟨_, _, rfl, ih.mpr rfl, rfl⟩

theorem encodesValue_array : EncodesValue .array value bytes ↔
      ∃ elem values elements, value = .array values ∧ values.length ≤ maxArrayCount ∧
        EncodesAll (EncodesValue elem) values elements ∧
        bytes = leBytes 4 elem.id ++ leBytes 8 values.length ++ elements := by
  constructor
  · intro encoded
    cases encoded with
    | fixed shape _ => cases shape
    | array few paired encoded =>
        exact ⟨_, _, _, rfl, few, ⟨_, forall₂_iff_zip.mpr ⟨paired, encoded _ _⟩, rfl⟩, rfl⟩
  · rintro ⟨elem, values, elements, rfl, few, ⟨pieces, encoded, rfl⟩, rfl⟩
    have parts := forall₂_iff_zip.mp encoded
    exact .array few parts.1 fun _ _ member => parts.2 member

theorem encodesValue_string :
    EncodesValue .string value bytes ↔ ∃ text, value = .string text ∧ EncodesString text bytes := by
  constructor
  · intro encoded
    cases encoded with
    | fixed shape _ => cases shape
    | string encoded => exact ⟨_, rfl, encoded⟩
  · rintro ⟨text, rfl, encoded⟩
    exact .string encoded

theorem encodesValue_fixed {size : Nat} {read : List UInt8 → MetadataValue} (shape : type.fixed = some (size, read)) :
    EncodesValue type value bytes ↔ bytes.length = size ∧ value = read bytes := by
  constructor
  · intro encoded
    cases encoded with
    | fixed shape' full =>
        cases shape.symm.trans shape'
        exact ⟨full, rfl⟩
    | string _ => cases shape
    | array _ _ _ => cases shape
  · rintro ⟨full, rfl⟩
    exact .fixed shape full

end Pictor.Gguf
