import Pictor.Construction.Gguf.Writer
import Pictor.Proof.Gguf.Format

namespace Pictor.Gguf
open Appending BuildArith LittleEndian List

/-- The value that a reader gets for a written value. -/
def MetadataWriteValue.read : MetadataWriteValue → MetadataValue
  | u32 value => .uint32 value
  | i32 value => .int32 value
  | f32 bits => .float32 bits
  | f64 bits => .float64 bits
  | u64 value => .uint64 value
  | bool value => .bool value
  | str value => .string value
  | arrayStr items => .array (items.map .string)
  | arrayF32 items => .array (items.map .float32)
  | arrayU32 items => .array (items.map .uint32)

/-- The size of a text behind its length. -/
def stringSize (text : List Char) : Nat := 8 + (Utf8.encode text).length

/-- The size of a value behind its type. -/
def MetadataWriteValue.size : MetadataWriteValue → Nat
  | u32 _ | i32 _ | f32 _ => 8
  | f64 _ | u64 _ => 12
  | bool _ => 5
  | str value => 4 + stringSize value
  | arrayStr items => 16 + (items.map stringSize).sum
  | arrayF32 items | arrayU32 items => 16 + (items.map fun _ => 4).sum

/-- A text keeps the limit of the reader. -/
def Short (text : List Char) : Prop := (Utf8.encode text).length ≤ maxStringLen

/-- A value keeps the limits of the reader. -/
def MetadataWriteValue.Limited : MetadataWriteValue → Prop
  | str value => Short value
  | arrayStr items => items.length ≤ maxArrayCount ∧ ∀ item ∈ items, Short item
  | arrayF32 items | arrayU32 items => items.length ≤ maxArrayCount
  | _ => True

/-- The type that a reader gets for a written type. -/
def TensorType.read : TensorType → GgufTensorType
  | f32 => .f32
  | f16 => .f16
  | q4_0 => .q4_0
  | bf16 => .bf16
  | q8_0 => .q8_0
  | q4_K => .q4_K
  | q5_K => .q5_K
  | q6_K => .q6_K
  | tq2_0 => .tq2_0
  | q1_0G128 => .q1_0_g128
  | tq2_0_g128 => .tq2_0_g128
  | f8_E4M3 => .f8_E4M3
  | f8_E5M2 => .f8_E5M2

/-- Both tables of block sizes agree. -/
theorem blockSize_read (type : TensorType) : type.read.blockSize = type.blockSize := by
  cases type <;> rfl

theorem blockBytes_read (type : TensorType) : type.read.blockBytes = type.blockBytes := by
  cases type <;> rfl

theorem code_read (type : TensorType) : type.code.toNat = type.read.id := by
  cases type <;> rfl

theorem writes_writeLeU32 (value : UInt32) : Writes (writeLeU32 value) () (leBytes 4 value.toNat) :=
  writes_writeAll _

theorem writes_writeLeU64 (value : UInt64) : Writes (writeLeU64 value) () (leBytes 8 value.toNat) :=
  writes_writeAll _

variable {bytes : List UInt8} {size : Nat} {type : GgufValueType} {Item : Type} {build : Build} {entry : TensorEntry}
  {offset : UInt64}

/-- A program that computes a result after a part writes this part. -/
theorem writes_then {Size Result : Type} {program : Writing Size} {size : Size} (wrote : Writes program size bytes)
    (result : Size → Result) :
    Writes (program >>= fun size => pure (result size)) (result size) bytes := by
  rw [← append_nil bytes]
  exact wrote.bind (writes_pure _)

/-- A number behind the type of a value. -/
theorem writes_fixed {type : GgufType} {program : Writing Unit} (wrote : Writes program () bytes) :
    Writes (do
      writeLeU32 type.code
      program
      return size) size (leBytes 4 type.code.toNat ++ bytes) := by
  exact (writes_writeLeU32 type.code).bind (writes_then wrote _)

/-- A piece of a file encodes an item that keeps its limits, and a reader takes nothing else from the piece. -/
structure Renders {Item : Type} (encodes : Item → List UInt8 → Prop) (item : Item) (limited : Prop)
    (piece : List UInt8) : Prop where
  encoded : limited → encodes item piece
  settled : piece.length < 2 ^ 64 → ∀ item' used rest rest', encodes item' used →
    piece ++ rest = used ++ rest' → limited ∧ used = piece

theorem leBytes_injective {width value value' : Nat} (fits : value < 256 ^ width) (fits' : value' < 256 ^ width)
    (same : leBytes width value = leBytes width value') : value = value' := by
  rw [← ofLeBytes_leBytes fits, same, ofLeBytes_leBytes fits']

theorem renders_string (text : List Char) : Renders EncodesString text (Short text)
    (leBytes 8 (UInt64.ofNat (Utf8.encode text).length).toNat ++ Utf8.encode text) := by
  constructor
  · intro short
    have few : (Utf8.encode text).length < 2 ^ 64 := lt_of_le_of_lt short (by decide)
    rw [UInt64.toNat_ofNat_of_lt' few]
    exact ⟨short, rfl⟩
  · rintro small text' _ rest rest' ⟨short, rfl⟩ same
    have few : (Utf8.encode text).length < 2 ^ 64 := by
      rw [length_append] at small
      omega
    rw [UInt64.toNat_ofNat_of_lt' few] at same ⊢
    simp only [append_assoc] at same
    obtain ⟨counts, behind⟩ := append_inj same (by simp only [length_leBytes])
    have long := leBytes_injective few (lt_of_le_of_lt short (by decide)) counts
    obtain ⟨texts, _⟩ := append_inj behind long
    rw [Short, long, ← texts, long]
    exact ⟨short, rfl⟩

theorem writeString_writes (text : List Char) :
    ∃ bytes, Renders EncodesString text (Short text) bytes ∧ bytes.length = stringSize text ∧
      Writes (writeString text) (stringSize text) bytes := by
  refine ⟨_, renders_string text, ?_, ?_⟩
  · rw [length_append, length_leBytes, stringSize]
  · exact (writes_writeLeU64 _).bind (writes_then (writes_writeAll _) _)

theorem renders_fixed {read : List UInt8 → MetadataValue} {value : MetadataValue}
    (shape : type.fixed = some (size, read)) (full : bytes.length = size) (same : value = read bytes) :
    Renders (EncodesValue type) value True bytes := by
  constructor
  · intro _
    rw [encodesValue_fixed shape]
    exact ⟨full, same⟩
  · intro _ value' used rest rest' encoded both
    obtain ⟨full', _⟩ := (encodesValue_fixed shape).mp encoded
    exact ⟨trivial, (append_inj both (full.trans full'.symm)).1.symm⟩

theorem Renders.string {text : List Char} {bytes : List UInt8}
    (rendered : Renders EncodesString text (Short text) bytes) :
    Renders (EncodesValue .string) (.string text) (Short text) bytes := by
  constructor
  · exact fun short => .string (rendered.encoded short)
  · intro small value used rest rest' encoded same
    obtain ⟨text', _, encoded⟩ := encodesValue_string.mp encoded
    exact rendered.settled small text' used rest rest' encoded same

/-- Items are rendered one after another if their number is known. -/
theorem Renders.all {Item Read : Type} {encodes : Read → List UInt8 → Prop} {value : Item → Read}
    {limited : Item → Prop} {items : List Item} {pieces : List (List UInt8)}
    (rendered : List.Forall₂ (fun item piece => Renders encodes (value item) (limited item) piece) items pieces) :
    Renders (fun read used => read.length = items.length ∧ EncodesAll encodes read used) (items.map value)
      (∀ item ∈ items, limited item) pieces.flatten := by
  induction rendered with
  | nil =>
      constructor
      · exact fun _ => ⟨rfl, encodesAll_nil.mpr rfl⟩
      · rintro _ read used _ _ ⟨none, encoded⟩ _
        obtain rfl := length_eq_zero_iff.mp none
        exact ⟨fun _ member => (nomatch member), encodesAll_nil.mp encoded⟩
  | cons first _ ih =>
      constructor
      · intro all
        rw [forall_mem_cons] at all
        obtain ⟨count, later⟩ := ih.encoded all.2
        refine ⟨by rw [length_map], ?_⟩
        exact encodesAll_cons.mpr ⟨_, _, first.encoded all.1, later, flatten_cons⟩
      · rintro small read used rest rest' ⟨count, encoded⟩ same
        obtain ⟨value, others, rfl⟩ := exists_cons_of_length_eq_add_one count
        obtain ⟨front, back, head, later, rfl⟩ := encodesAll_cons.mp encoded
        rw [flatten_cons, length_append] at small
        rw [flatten_cons, append_assoc, append_assoc] at same
        obtain ⟨kept, rfl⟩ := first.settled (by omega) value front _ _ head same
        obtain ⟨others, rfl⟩ := ih.settled (by omega) _ back rest rest' ⟨Nat.succ_inj.mp count, later⟩
          (append_cancel_left same)
        exact ⟨forall_mem_cons.mpr ⟨kept, others⟩, flatten_cons.symm⟩

/-- A list of items of a positive size is not longer than its size. -/
theorem length_le_sum {size : Item → Nat} (items : List Item) (positive : ∀ item, 1 ≤ size item) :
    items.length ≤ (items.map size).sum := by
  induction items with
  | nil => rfl
  | cons item items ih =>
      have first := positive item
      rw [length_cons, map_cons, sum_cons]
      omega

theorem id_lt (type : GgufValueType) : type.id < 256 ^ 4 := by
  cases type <;> decide

theorem id_injective {type' : GgufValueType} (same : leBytes 4 type.id = leBytes 4 type'.id) : type = type' := by
  have ids := leBytes_injective (id_lt type) (id_lt type') same
  have known := @valueType_fromId (UInt32.ofNat type.id) type
  have known' := @valueType_fromId (UInt32.ofNat type.id) type'
  have id : (UInt32.ofNat type.id).toNat = type.id := UInt32.toNat_ofNat_of_lt' (id_lt type)
  rw [known.mpr id, ← ids] at known'
  exact Except.ok.inj (known'.mpr id)

theorem renders_array {value : Item → MetadataValue} {limited : Item → Prop} {items : List Item}
    (few : items.length ≤ bytes.length)
    (rendered : Renders (fun read used => read.length = items.length ∧ EncodesAll (EncodesValue type) read used) (items.map value) (∀ item ∈ items, limited item) bytes) :
    Renders (EncodesValue .array) (.array (items.map value))
      (items.length ≤ maxArrayCount ∧ ∀ item ∈ items, limited item)
      (leBytes 4 type.id ++ (leBytes 8 (UInt64.ofNat items.length).toNat ++ bytes)) := by
  constructor
  · rintro ⟨bounded, all⟩
    have count : items.length < 2 ^ 64 := lt_of_le_of_lt bounded (by decide)
    rw [encodesValue_array, UInt64.toNat_ofNat_of_lt' count]
    refine ⟨type, _, bytes, rfl, ?_, (rendered.encoded all).2, ?_⟩
    · rwa [length_map]
    · rw [append_assoc, length_map]
  · intro small value' used rest rest' encoded same
    obtain ⟨type', values, elements, _, bounded, inner, rfl⟩ := encodesValue_array.mp encoded
    simp only [length_append, length_leBytes] at small
    have count : items.length < 2 ^ 64 := by omega
    rw [UInt64.toNat_ofNat_of_lt' count] at same ⊢
    simp only [append_assoc] at same
    obtain ⟨types, behind⟩ := append_inj same (by simp only [length_leBytes])
    obtain rfl := id_injective types
    obtain ⟨counts, behind⟩ := append_inj behind (by simp only [length_leBytes])
    have long := leBytes_injective count (lt_of_le_of_lt bounded (by decide)) counts
    obtain ⟨all, rfl⟩ := rendered.settled (by omega) values elements rest rest' ⟨long.symm, inner⟩ behind
    rw [long, append_assoc]
    exact ⟨⟨bounded, all⟩, rfl⟩

/-- The elements of an array stand behind their type and their number. -/
theorem writes_array {Item : Type} {step : Nat → Item → Writing Nat} {size : Item → Nat} {elem : GgufType}
    {type : GgufValueType} {value : Item → MetadataValue} {limited : Item → Prop} (items : List Item)
    (named : elem.code.toNat = type.id) (positive : ∀ item, 1 ≤ size item)
    (wrote : ∀ pos item, ∃ piece, Renders (EncodesValue type) (value item) (limited item) piece ∧
      piece.length = size item ∧ Writes (step pos item) (pos + size item) piece) :
    ∃ bytes, Renders (EncodesValue .array) (.array (items.map value))
        (items.length ≤ maxArrayCount ∧ ∀ item ∈ items, limited item) bytes ∧
      (leBytes 4 GgufType.array.code.toNat ++ bytes).length = 16 + (items.map size).sum ∧
      Writes (do
        writeLeU32 GgufType.array.code
        writeLeU32 elem.code
        writeLeU64 (UInt64.ofNat items.length)
        items.foldlM step 16) (16 + (items.map size).sum) (leBytes 4 GgufType.array.code.toNat ++ bytes) := by
  obtain ⟨pieces, paired, full, looped⟩ := writes_foldlM items (fun pos item _ => wrote pos item) 16
  have few : items.length ≤ pieces.flatten.length := by
    rw [full]
    exact length_le_sum items positive
  refine ⟨_, renders_array few (Renders.all paired), ?_, ?_⟩
  · simp only [length_append, length_leBytes, full]
    omega
  · rw [← named]
    exact (writes_writeLeU32 _).bind ((writes_writeLeU32 _).bind ((writes_writeLeU64 _).bind looped))

theorem length_fixed {id : Nat} (full : bytes.length = size) :
    (leBytes 4 id ++ bytes).length = 4 + size := by
  rw [length_append, length_leBytes, full]

/-- A value is written behind its type. -/
theorem writeMetadataValue_writes (value : MetadataWriteValue) :
    ∃ type bytes, Renders (EncodesValue type) value.read value.Limited bytes ∧
      (leBytes 4 type.id ++ bytes).length = value.size ∧
      Writes (writeMetadataValue value) value.size (leBytes 4 type.id ++ bytes) := by
  cases value with
  | u32 value =>
      refine ⟨.uint32, leBytes 4 value.toNat, ?_, length_fixed (length_leBytes _ _), ?_⟩
      · exact renders_fixed rfl (length_leBytes _ _) (by rw [readU32_leBytes]; rfl)
      · exact writes_fixed (writes_writeLeU32 value)
  | i32 value =>
      refine ⟨.int32, leBytes 4 value.toUInt32.toNat, ?_, length_fixed (length_leBytes _ _), ?_⟩
      · exact renders_fixed rfl (length_leBytes _ _) (by rw [readU32_leBytes, Int32.toInt32_toUInt32]; rfl)
      · exact writes_fixed (writes_writeLeU32 value.toUInt32)
  | f32 bits =>
      refine ⟨.float32, leBytes 4 bits.toNat, ?_, length_fixed (length_leBytes _ _), ?_⟩
      · exact renders_fixed rfl (length_leBytes _ _) (by rw [readU32_leBytes]; rfl)
      · exact writes_fixed (writes_writeLeU32 bits)
  | f64 bits =>
      refine ⟨.float64, leBytes 8 bits.toNat, ?_, length_fixed (length_leBytes _ _), ?_⟩
      · exact renders_fixed rfl (length_leBytes _ _) (by rw [readU64_leBytes]; rfl)
      · exact writes_fixed (writes_writeLeU64 bits)
  | u64 value =>
      refine ⟨.uint64, leBytes 8 value.toNat, ?_, length_fixed (length_leBytes _ _), ?_⟩
      · exact renders_fixed rfl (length_leBytes _ _) (by rw [readU64_leBytes]; rfl)
      · exact writes_fixed (writes_writeLeU64 value)
  | bool value =>
      refine ⟨.bool, [if value then 1 else 0], ?_, length_fixed rfl, ?_⟩
      · exact renders_fixed rfl rfl (by cases value <;> rfl)
      · exact writes_fixed (writes_writeAll _)
  | str value =>
      obtain ⟨bytes, rendered, full, wrote⟩ := writeString_writes value
      refine ⟨.string, bytes, rendered.string, length_fixed full, ?_⟩
      exact (writes_writeLeU32 GgufType.string.code).bind (writes_then wrote _)
  | arrayStr items =>
      have named : GgufType.string.code.toNat = GgufValueType.string.id := rfl
      have positive (item : List Char) : 1 ≤ stringSize item := by
        rw [stringSize]
        omega
      refine ⟨.array, writes_array items named positive fun pos item => ?_⟩
      obtain ⟨bytes, rendered, full, wrote⟩ := writeString_writes item
      exact ⟨bytes, rendered.string, full, writes_then wrote _⟩
  | arrayF32 items =>
      have named : GgufType.float32.code.toNat = GgufValueType.float32.id := rfl
      obtain ⟨bytes, rendered, full, wrote⟩ := @writes_array _ (fun total bits => do
        writeLeU32 bits
        return total + 4) (fun _ => 4) _ _ MetadataValue.float32 (fun _ => True) items named (fun _ => by decide)
        fun pos bits => ⟨leBytes 4 bits.toNat, renders_fixed rfl (length_leBytes _ _) (by rw [readU32_leBytes]),
          length_leBytes _ _, writes_then (writes_writeLeU32 bits) fun _ => pos + 4⟩
      simp only [implies_true, and_true] at rendered
      exact ⟨.array, bytes, rendered, full, wrote⟩
  | arrayU32 items =>
      have named : GgufType.uint32.code.toNat = GgufValueType.uint32.id := rfl
      obtain ⟨bytes, rendered, full, wrote⟩ := @writes_array _ (fun total value => do
        writeLeU32 value
        return total + 4) (fun _ => 4) _ _ MetadataValue.uint32 (fun _ => True) items named (fun _ => by decide)
        fun pos value => ⟨leBytes 4 value.toNat, renders_fixed rfl (length_leBytes _ _) (by rw [readU32_leBytes]),
          length_leBytes _ _, writes_then (writes_writeLeU32 value) fun _ => pos + 4⟩
      simp only [implies_true, and_true] at rendered
      exact ⟨.array, bytes, rendered, full, wrote⟩

def entrySize (entry : List Char × MetadataWriteValue) : Nat := stringSize entry.1 + entry.2.size

/-- A key and a value keep the limits of the reader. -/
def EntryLimited (entry : List Char × MetadataWriteValue) : Prop := Short entry.1 ∧ entry.2.Limited

theorem writeEntry_writes (entry : List Char × MetadataWriteValue) (pos : Nat) :
    ∃ piece, Renders EncodesEntry (entry.1, entry.2.read) (EntryLimited entry) piece ∧
      piece.length = entrySize entry ∧
      Writes (GgufWriter.writeEntry pos entry) (pos + entrySize entry) piece := by
  obtain ⟨key, named, full, wrote⟩ := writeString_writes entry.1
  obtain ⟨type, value, valued, full', wrote'⟩ := writeMetadataValue_writes entry.2
  refine ⟨key ++ (leBytes 4 type.id ++ value), ⟨?_, ?_⟩, ?_, ?_⟩
  · rintro ⟨short, limited⟩
    refine ⟨type, key, value, named.encoded short, valued.encoded limited, ?_⟩
    rw [append_assoc]
  · rintro small entry' _ rest rest' ⟨type', key', value', encoded, encoded', rfl⟩ same
    simp only [length_append] at small
    simp only [append_assoc] at same
    obtain ⟨short, rfl⟩ := named.settled (by omega) _ key' _ _ encoded same
    obtain ⟨types, behind⟩ := append_inj (append_cancel_left same) (by simp only [length_leBytes])
    obtain rfl := id_injective types
    obtain ⟨limited, rfl⟩ := valued.settled (by omega) _ value' _ _ encoded' behind
    exact ⟨⟨short, limited⟩, append_assoc _ _ _⟩
  · rw [length_append, full, full', entrySize]
  · rw [entrySize, ← Nat.add_assoc]
    exact wrote.bind (writes_then wrote' _)

namespace TensorEntry

/-- The tensor that a reader gets for an entry. -/
def info (entry : TensorEntry) (offset : UInt64) : TensorInfo :=
  ⟨entry.name, entry.shape, entry.tensorType.read, offset⟩

/-- The size of an entry before the tensor data. -/
def infoSize (entry : TensorEntry) : Nat := stringSize entry.name + (4 + (8 * entry.shape.length + (4 + 8)))

/-- The data have the size that the shape and the type say. -/
def Sized (build : Build) (entry : TensorEntry) : Prop :=
  ∃ size, entry.expected build = .ok size ∧ entry.data.length = size.toNat

end TensorEntry

theorem writeTensorInfo_sized {pos : Nat} {out : List UInt8} {last : Nat × List UInt8}
    (wrote : GgufWriter.writeTensorInfo build pos entry offset out = .ok last) : entry.Sized build := by
  rw [GgufWriter.writeTensorInfo] at wrote
  cases expected : entry.expected build with
  | error failure =>
      rw [expected] at wrote
      cases wrote
  | ok size =>
      rw [expected] at wrote
      refine ⟨size, expected, ?_⟩
      by_contra different
      change (if entry.data.length ≠ size.toNat then _ else _ : Writing Nat) out = _ at wrote
      rw [if_pos different] at wrote
      cases wrote

theorem writeShape_writes (shape : List UInt64) (pos : Nat) :
    ∃ dims, dims = shape.flatMap (fun dim => leBytes 8 dim.toNat) ∧ dims.length = 8 * shape.length ∧
      Writes (shape.foldlM (fun pos dim => do
        writeLeU64 dim
        return pos + 8) pos : Writing Nat) (pos + 8 * shape.length) dims := by
  obtain ⟨pieces, paired, full, wrote⟩ := @writes_foldlM WriteFailure _ _
    (fun pos dim => do
      writeLeU64 dim
      return pos + 8) (fun _ => 8) (fun dim piece => piece = leBytes 8 dim.toNat) shape
    (fun pos dim _ => ⟨_, rfl, length_leBytes _ _, writes_then (writes_writeLeU64 dim) fun _ => pos + 8⟩) pos
  have size : (shape.map fun _ => 8).sum = 8 * shape.length := by
    rw [map_const', sum_replicate_nat, Nat.mul_comm]
  rw [size] at full wrote
  exact ⟨pieces.flatten, encodesAll_exact.mp ⟨pieces, paired, rfl⟩, full, wrote⟩

/-- A name and a number of dimensions keep the limits of the reader. -/
def TensorEntry.Limited (entry : TensorEntry) : Prop := Short entry.name ∧ entry.shape.length ≤ maxTensorDims

theorem renders_tensor {name dims : List UInt8} (named : Renders EncodesString entry.name (Short entry.name) name)
    (flat : entry.shape.length < 2 ^ 32) (listed : dims = entry.shape.flatMap fun dim => leBytes 8 dim.toNat) :
    Renders EncodesTensor (entry.info offset) entry.Limited
      (name ++ (leBytes 4 (UInt32.ofNat entry.shape.length).toNat ++ (dims ++
        (leBytes 4 entry.tensorType.code.toNat ++ leBytes 8 offset.toNat)))) := by
  rw [UInt32.toNat_ofNat_of_lt' flat, listed, code_read]
  constructor
  · rintro ⟨short, few⟩
    refine ⟨name, named.encoded short, few, ?_⟩
    simp only [TensorEntry.info, append_assoc]
  · rintro small info _ rest rest' ⟨name', encoded, few, rfl⟩ same
    rw [length_append] at small
    simp only [append_assoc] at same
    obtain ⟨short, rfl⟩ := named.settled (by omega) _ name' _ _ encoded same
    obtain ⟨counts, behind⟩ := append_inj (append_cancel_left same) (by simp only [length_leBytes])
    have count := leBytes_injective flat (lt_of_le_of_lt few (by decide)) counts
    have size (shape : List UInt64) : (shape.flatMap fun dim => leBytes 8 dim.toNat).length = shape.length * 8 := by
      simp only [length_flatMap, length_leBytes, map_const', sum_replicate_nat]
    obtain ⟨dims, behind⟩ := append_inj behind (by rw [size, size, count])
    obtain ⟨types, behind⟩ := append_inj behind (by simp only [length_leBytes])
    obtain ⟨offsets, _⟩ := append_inj behind (by simp only [length_leBytes])
    rw [TensorEntry.Limited, counts, dims, types, offsets, count]
    refine ⟨⟨short, few⟩, ?_⟩
    simp only [append_assoc]

theorem writeTensorInfo_writes (sized : entry.Sized build) (flat : entry.shape.length < 2 ^ 32) (offset : UInt64)
    (pos : Nat) :
    ∃ piece, Renders EncodesTensor (entry.info offset) entry.Limited piece ∧ piece.length = entry.infoSize ∧
      Writes (GgufWriter.writeTensorInfo build pos entry offset) (pos + entry.infoSize) piece := by
  obtain ⟨size, expected, same⟩ := sized
  obtain ⟨name, named, full, wrote⟩ := writeString_writes entry.name
  obtain ⟨dims, listed, full', looped⟩ := writeShape_writes entry.shape (pos + stringSize entry.name + 4)
  refine ⟨_, renders_tensor named flat listed, ?_, ?_⟩
  · simp only [length_append, length_leBytes, full, full', TensorEntry.infoSize]
  · have total : pos + entry.infoSize = pos + stringSize entry.name + 4 + 8 * entry.shape.length + 4 + 8 := by
      rw [TensorEntry.infoSize]
      omega
    rw [total, ← nil_append (name ++ _)]
    apply (writes_lift expected).bind
    dsimp only
    rw [if_neg (not_not.mpr same)]
    apply wrote.bind
    apply (writes_writeLeU32 _).bind
    apply looped.bind
    exact (writes_writeLeU32 _).bind (writes_then (writes_writeLeU64 offset) _)

end Pictor.Gguf
