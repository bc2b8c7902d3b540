import Pictor.Library.Outcome
import Pictor.Proof.Gguf.Format

namespace Pictor.Gguf
open LittleEndian List

namespace Cursor

variable {Value Next : Type} {bytes rest : List UInt8} {last : Next} {read : Cursor Value} {value : Value}

theorem bind_ok {first : Cursor Value} {next : Value → Cursor Next} : (first >>= next) bytes = .ok (last, rest) ↔
      ∃ value middle, first bytes = .ok (value, middle) ∧ next value middle = .ok (last, rest) := by
  change (first bytes >>= fun result => next result.1 result.2) = _ ↔ _
  cases first bytes with
  | error error => simp [bind, Except.bind]
  | ok result =>
      obtain ⟨value, middle⟩ := result
      simp [bind, Except.bind]

theorem map_ok {change : Value → Next} :
    (change <$> read) bytes = .ok (last, rest) ↔ ∃ value, read bytes = .ok (value, rest) ∧ last = change value := by
  change ((fun result => (change result.1, result.2)) <$> read bytes) = _ ↔ _
  cases read bytes with
  | error error => simp [Functor.map, Except.map]
  | ok result =>
      obtain ⟨value, middle⟩ := result
      simp only [Functor.map, Except.map, Except.ok.injEq, Prod.mk.injEq]
      constructor
      · rintro ⟨rfl, rfl⟩
        exact ⟨value, ⟨rfl, rfl⟩, rfl⟩
      · rintro ⟨_, ⟨rfl, rfl⟩, rfl⟩
        exact ⟨rfl, rfl⟩

theorem pure_ok {last : Value} :
    (pure value : Cursor Value) bytes = .ok (last, rest) ↔ last = value ∧ bytes = rest := by
  change Except.ok (value, bytes) = _ ↔ _
  rw [Except.ok.injEq, Prod.mk.injEq, eq_comm]

/-- A check that fails ends the reading. -/
theorem guard_ok {wrong : Prop} [Decidable wrong] {error : BonsaiError} {next : Cursor Next} :
    (if wrong then throw error else next) bytes = .ok (last, rest) ↔ ¬wrong ∧ next bytes = .ok (last, rest) := by
  by_cases failed : wrong
  · rw [if_pos failed]
    exact ⟨(nomatch ·), fun both => absurd failed both.1⟩
  · rw [if_neg failed]
    exact ⟨fun read => ⟨failed, read⟩, fun both => both.2⟩

/-- A pure step that fails ends the reading. -/
theorem lift_ok {step : Except BonsaiError Value} :
    (liftM step : Cursor Value) bytes = .ok (value, rest) ↔ step = .ok value ∧ bytes = rest := by
  cases step with
  | error error => exact ⟨(nomatch ·), fun both => (nomatch both.1)⟩
  | ok other =>
      change Except.ok (other, bytes) = _ ↔ _
      simp

theorem readExact_ok {size : Nat} {got : List UInt8} :
    readExact size bytes = .ok (got, rest) ↔ got.length = size ∧ bytes = got ++ rest := by
  rw [readExact]
  constructor
  · intro read
    split at read
    case isTrue enough =>
        cases read
        exact ⟨length_take_of_le enough, (take_append_drop _ _).symm⟩
    case isFalse => cases read
  · rintro ⟨rfl, rfl⟩
    rw [if_pos (by simp), take_left, drop_left]

theorem u32_ok {value : UInt32} : u32 bytes = .ok (value, rest) ↔ bytes = leBytes 4 value.toNat ++ rest := by
  rw [u32, map_ok]
  constructor
  · rintro ⟨got, read, rfl⟩
    obtain ⟨full, rfl⟩ := readExact_ok.mp read
    rw [leBytes_readU32 full]
  · rintro rfl
    exact ⟨_, readExact_ok.mpr ⟨length_leBytes _ _, rfl⟩, (readU32_leBytes value).symm⟩

theorem u64_ok {value : UInt64} : u64 bytes = .ok (value, rest) ↔ bytes = leBytes 8 value.toNat ++ rest := by
  rw [u64, map_ok]
  constructor
  · rintro ⟨got, read, rfl⟩
    obtain ⟨full, rfl⟩ := readExact_ok.mp read
    rw [leBytes_readU64 full]
  · rintro rfl
    exact ⟨_, readExact_ok.mpr ⟨length_leBytes _ _, rfl⟩, (readU64_leBytes value).symm⟩

/-- Several values are read exactly if each of them is. -/
theorem many_ok {encodes : Value → List UInt8 → Prop} {bound : Nat}
    (reads : ∀ bytes, bytes.length ≤ bound → ∀ value rest, read bytes = .ok (value, rest) ↔ ∃ used, encodes value used ∧ bytes = used ++ rest)
    {count : Nat} (short : bytes.length ≤ bound) {values : List Value} : many read count bytes = .ok (values, rest) ↔
      ∃ used, values.length = count ∧ EncodesAll encodes values used ∧ bytes = used ++ rest := by
  induction count generalizing bytes values with
  | zero =>
      rw [many, pure_ok]
      constructor
      · rintro ⟨rfl, rfl⟩
        exact ⟨[], rfl, encodesAll_nil.mpr rfl, rfl⟩
      · rintro ⟨used, none, encoded, rfl⟩
        obtain rfl := length_eq_zero_iff.mp none
        rw [encodesAll_nil.mp encoded]
        exact ⟨rfl, rfl⟩
  | succ count ih =>
      rw [many, bind_ok]
      constructor
      · rintro ⟨value, middle, first, later⟩
        obtain ⟨front, encoded, rfl⟩ := (reads bytes short value middle).mp first
        have inner : middle.length ≤ bound := by
          rw [length_append] at short
          omega
        obtain ⟨others, last, more, done⟩ := bind_ok.mp later
        obtain ⟨rfl, rfl⟩ := pure_ok.mp done
        obtain ⟨back, full, encoded', rfl⟩ := (ih inner).mp more
        refine ⟨front ++ back, by rw [length_cons, full], ?_, by rw [append_assoc]⟩
        exact encodesAll_cons.mpr ⟨front, back, encoded, encoded', rfl⟩
      · rintro ⟨used, full, encoded, rfl⟩
        obtain ⟨value, others, rfl⟩ := exists_cons_of_length_eq_add_one full
        obtain ⟨front, back, first, later, rfl⟩ := encodesAll_cons.mp encoded
        rw [append_assoc] at short ⊢
        have inner : (back ++ rest).length ≤ bound := by
          rw [length_append] at short
          omega
        refine ⟨value, back ++ rest, (reads _ short _ _).mpr ⟨front, first, rfl⟩, ?_⟩
        exact bind_ok.mpr ⟨others, rest, (ih inner).mpr ⟨back, Nat.succ_inj.mp full, later, rfl⟩, rfl⟩

end Cursor

open Cursor

variable {bytes rest : List UInt8}

theorem readGgufString_ok {text : List Char} : readGgufString bytes = .ok (text, rest) ↔
    ∃ used, EncodesString text used ∧ bytes = used ++ rest := by
  rw [readGgufString, bind_ok]
  constructor
  · rintro ⟨len, middle, first, later⟩
    obtain rfl := u64_ok.mp first
    obtain ⟨short, later⟩ := guard_ok.mp later
    obtain ⟨buf, after, got, done⟩ := bind_ok.mp later
    obtain ⟨full, rfl⟩ := readExact_ok.mp got
    cases decoded : Utf8.decode buf with
    | none =>
        rw [decoded] at done
        cases done
    | some other =>
        rw [decoded] at done
        obtain ⟨rfl, rfl⟩ := pure_ok.mp done
        obtain rfl := Utf8.decode_eq_some.mp decoded
        refine ⟨leBytes 8 (Utf8.encode text).length ++ Utf8.encode text, ⟨?_, rfl⟩, ?_⟩
        · rw [full]
          exact Nat.not_lt.mp short
        · rw [full, append_assoc]
  · rintro ⟨_, ⟨short, rfl⟩, rfl⟩
    have size : (UInt64.ofNat (Utf8.encode text).length).toNat = (Utf8.encode text).length :=
      UInt64.toNat_ofNat_of_lt' (lt_of_le_of_lt short (by decide))
    refine ⟨UInt64.ofNat (Utf8.encode text).length, Utf8.encode text ++ rest, ?_, ?_⟩
    · rw [u64_ok, size, append_assoc]
    · apply guard_ok.mpr
      rw [size]
      refine ⟨Nat.not_lt.mpr short, bind_ok.mpr ⟨_, rest, readExact_ok.mpr ⟨rfl, rfl⟩, ?_⟩⟩
      rw [Utf8.decode_encode]
      rfl

variable {depth size : Nat} {value : MetadataValue} {type : GgufValueType} {read : List UInt8 → MetadataValue}

theorem readString_ok : readValue depth .string bytes = .ok (value, rest) ↔
      ∃ used, EncodesValue .string value used ∧ bytes = used ++ rest := by
  have unfolded : readValue depth .string = .string <$> readGgufString := by
    cases depth <;> rfl
  rw [unfolded, map_ok]
  constructor
  · rintro ⟨text, read, rfl⟩
    obtain ⟨used, encoded, rfl⟩ := readGgufString_ok.mp read
    exact ⟨used, encodesValue_string.mpr ⟨text, rfl, encoded⟩, rfl⟩
  · rintro ⟨used, encoded, rfl⟩
    obtain ⟨text, rfl, inner⟩ := encodesValue_string.mp encoded
    exact ⟨text, readGgufString_ok.mpr ⟨used, inner, rfl⟩, rfl⟩

/-- A value of a fixed size is read from its bytes. -/
theorem readFixed_ok (shape : type.fixed = some (size, read)) {cursor : Cursor MetadataValue}
    (reads : cursor = read <$> readExact size) : cursor bytes = .ok (value, rest) ↔
      ∃ used, EncodesValue type value used ∧ bytes = used ++ rest := by
  rw [reads, map_ok]
  constructor
  · rintro ⟨got, read, rfl⟩
    obtain ⟨full, rfl⟩ := readExact_ok.mp read
    exact ⟨got, (encodesValue_fixed shape).mpr ⟨full, rfl⟩, rfl⟩
  · rintro ⟨used, encoded, rfl⟩
    obtain ⟨full, rfl⟩ := (encodesValue_fixed shape).mp encoded
    exact ⟨used, readExact_ok.mpr ⟨full, rfl⟩, rfl⟩

theorem readValue_fixed (shape : type.fixed = some (size, read)) (depth : Nat) :
    readValue depth type = read <$> readExact size := by
  cases type <;> cases shape <;> cases depth <;>
    simp only [readValue, u8, u16, u32, u64, bind_pure_comp, Functor.map_map]

/-- An array is read exactly if its elements are. -/
theorem readArray_ok
    (elements : ∀ type bytes, bytes.length ≤ depth → ∀ value rest, readValue depth type bytes = .ok (value, rest) ↔ ∃ used, EncodesValue type value used ∧ bytes = used ++ rest)
    (deep : bytes.length ≤ depth + 1) : readValue (depth + 1) .array bytes = .ok (value, rest) ↔
      ∃ used, EncodesValue .array value used ∧ bytes = used ++ rest := by
  rw [readValue, bind_ok]
  constructor
  · rintro ⟨elemTypeId, afterId, first, typed⟩
    obtain rfl := u32_ok.mp first
    obtain ⟨elemType, same, known, counted⟩ := bind_ok.mp typed
    obtain ⟨resolved, rfl⟩ := lift_ok.mp known
    obtain ⟨count, afterCount, second, guarded⟩ := bind_ok.mp counted
    obtain rfl := u64_ok.mp second
    obtain ⟨few, listed⟩ := guard_ok.mp guarded
    obtain ⟨values, read, rfl⟩ := map_ok.mp listed
    have short : afterCount.length ≤ depth := by
      simp only [length_append, length_leBytes] at deep
      omega
    obtain ⟨used, full, encoded, rfl⟩ := (many_ok (elements elemType) short).mp read
    refine ⟨_, encodesValue_array.mpr ⟨elemType, values, used, rfl, ?_, encoded, rfl⟩, ?_⟩
    · rw [full]
      exact Nat.not_lt.mp few
    · rw [valueType_fromId.mp resolved, full]
      simp only [append_assoc]
  · rintro ⟨_, encoded, rfl⟩
    obtain ⟨elemType, values, used, rfl, few, inner, rfl⟩ := encodesValue_array.mp encoded
    have known : (UInt32.ofNat elemType.id).toNat = elemType.id := by
      cases elemType <;> rfl
    have count : (UInt64.ofNat values.length).toNat = values.length :=
      UInt64.toNat_ofNat_of_lt' (lt_of_le_of_lt few (by decide))
    have short : (used ++ rest).length ≤ depth := by
      simp only [length_append, length_leBytes] at deep ⊢
      omega
    refine ⟨UInt32.ofNat elemType.id, leBytes 8 values.length ++ (used ++ rest), ?_, ?_⟩
    · rw [u32_ok, known]
      simp only [append_assoc]
    refine bind_ok.mpr ⟨elemType, _, lift_ok.mpr ⟨valueType_fromId.mpr known, rfl⟩, ?_⟩
    refine bind_ok.mpr ⟨UInt64.ofNat values.length, used ++ rest, by rw [u64_ok, count], ?_⟩
    apply guard_ok.mpr
    rw [count]
    refine ⟨Nat.not_lt.mpr few, map_ok.mpr ⟨values, ?_, rfl⟩⟩
    exact (many_ok (elements elemType) short).mpr ⟨used, rfl, inner, rfl⟩

/-- The nesting is no deeper than the bytes are many. -/
theorem readValue_ok (deep : bytes.length ≤ depth) : readValue depth type bytes = .ok (value, rest) ↔
      ∃ used, EncodesValue type value used ∧ bytes = used ++ rest := by
  induction depth generalizing type bytes value rest with
  | zero =>
      cases shape : type.fixed with
      | some both => exact readFixed_ok shape (readValue_fixed shape 0)
      | none =>
          rcases fixed_none shape with rfl | rfl
          · exact readString_ok
          · obtain rfl := length_eq_zero_iff.mp (Nat.le_zero.mp deep)
            refine ⟨(nomatch ·), ?_⟩
            rintro ⟨_, encoded, none⟩
            obtain ⟨elemType, values, used, _, _, _, rfl⟩ := encodesValue_array.mp encoded
            have long := congrArg List.length none
            simp only [length_append, length_leBytes, length_nil] at long
            omega
  | succ depth ih =>
      cases shape : type.fixed with
      | some both => exact readFixed_ok shape (readValue_fixed shape (depth + 1))
      | none =>
          rcases fixed_none shape with rfl | rfl
          · exact readString_ok
          · exact readArray_ok (fun type bytes short value rest => ih short) deep

theorem readKvPair_ok {entry : List Char × MetadataValue} : readKvPair bytes = .ok (entry, rest) ↔
    ∃ used, EncodesEntry entry used ∧ bytes = used ++ rest := by
  rw [readKvPair, bind_ok]
  constructor
  · rintro ⟨key, afterKey, first, typed⟩
    obtain ⟨front, named, rfl⟩ := readGgufString_ok.mp first
    obtain ⟨typeId, afterId, second, known⟩ := bind_ok.mp typed
    obtain rfl := u32_ok.mp second
    obtain ⟨type, same, known, valued⟩ := bind_ok.mp known
    obtain ⟨resolved, rfl⟩ := lift_ok.mp known
    obtain ⟨value, last, read, done⟩ := bind_ok.mp valued
    obtain ⟨rfl, rfl⟩ := pure_ok.mp done
    obtain ⟨back, encoded, rfl⟩ := (readValue_ok le_rfl).mp read
    refine ⟨_, ⟨type, front, back, named, encoded, rfl⟩, ?_⟩
    rw [valueType_fromId.mp resolved]
    simp only [append_assoc]
  · rintro ⟨_, ⟨type, key, value, named, encoded, rfl⟩, rfl⟩
    refine ⟨entry.1, leBytes 4 type.id ++ (value ++ rest), ?_, ?_⟩
    · apply readGgufString_ok.mpr ⟨key, named, ?_⟩
      simp only [append_assoc]
    have known : (UInt32.ofNat type.id).toNat = type.id := by
      cases type <;> rfl
    refine bind_ok.mpr ⟨UInt32.ofNat type.id, value ++ rest, by rw [u32_ok, known], ?_⟩
    refine bind_ok.mpr ⟨type, _, lift_ok.mpr ⟨valueType_fromId.mpr known, rfl⟩, ?_⟩
    exact bind_ok.mpr ⟨entry.2, rest, (readValue_ok le_rfl).mpr ⟨value, encoded, rfl⟩, rfl⟩

theorem readShape_ok {count : Nat} {shape : List UInt64} : many u64 count bytes = .ok (shape, rest) ↔
    shape.length = count ∧ bytes = shape.flatMap (fun dim => leBytes 8 dim.toNat) ++ rest := by
  have dims (bytes : List UInt8) (dim : UInt64) (rest : List UInt8) :
      u64 bytes = .ok (dim, rest) ↔ ∃ used, used = leBytes 8 dim.toNat ∧ bytes = used ++ rest := by
    rw [u64_ok]
    simp
  rw [many_ok (fun bytes _ => dims bytes) le_rfl]
  constructor
  · rintro ⟨used, full, encoded, rfl⟩
    rw [encodesAll_exact.mp encoded]
    exact ⟨full, rfl⟩
  · rintro ⟨full, rfl⟩
    exact ⟨_, full, encodesAll_exact.mpr rfl, rfl⟩

theorem readTensorInfo_ok {info : TensorInfo} : readTensorInfo bytes = .ok (info, rest) ↔
    ∃ used, EncodesTensor info used ∧ bytes = used ++ rest := by
  rw [readTensorInfo, bind_ok]
  constructor
  · rintro ⟨name, afterName, first, counted⟩
    obtain ⟨front, named, rfl⟩ := readGgufString_ok.mp first
    obtain ⟨nDims, afterDims, second, guarded⟩ := bind_ok.mp counted
    obtain rfl := u32_ok.mp second
    obtain ⟨few, listed⟩ := guard_ok.mp guarded
    obtain ⟨shape, afterShape, third, typed⟩ := bind_ok.mp listed
    obtain ⟨full, rfl⟩ := readShape_ok.mp third
    obtain ⟨typeId, afterId, fourth, known⟩ := bind_ok.mp typed
    obtain rfl := u32_ok.mp fourth
    obtain ⟨type, same, known, placed⟩ := bind_ok.mp known
    obtain ⟨resolved, rfl⟩ := lift_ok.mp known
    obtain ⟨offset, last, fifth, done⟩ := bind_ok.mp placed
    obtain rfl := u64_ok.mp fifth
    obtain ⟨rfl, rfl⟩ := pure_ok.mp done
    refine ⟨_, ⟨front, named, ?_, rfl⟩, ?_⟩
    · change shape.length ≤ _
      rw [full]
      exact Nat.not_lt.mp few
    · rw [tensorType_fromId.mp resolved, full]
      simp only [append_assoc]
  · rintro ⟨_, ⟨name, named, few, rfl⟩, rfl⟩
    have known : (UInt32.ofNat info.tensorType.id).toNat = info.tensorType.id := by
      cases info.tensorType <;> rfl
    have count : (UInt32.ofNat info.shape.length).toNat = info.shape.length :=
      UInt32.toNat_ofNat_of_lt' (lt_of_le_of_lt few (by decide))
    simp only [append_assoc]
    refine ⟨info.name, _, readGgufString_ok.mpr ⟨name, named, rfl⟩, ?_⟩
    refine bind_ok.mpr ⟨UInt32.ofNat info.shape.length, _, by rw [u32_ok, count], ?_⟩
    apply guard_ok.mpr
    rw [count]
    refine ⟨Nat.not_lt.mpr few, bind_ok.mpr ⟨info.shape, _, readShape_ok.mpr ⟨rfl, rfl⟩, ?_⟩⟩
    refine bind_ok.mpr ⟨UInt32.ofNat info.tensorType.id, _, by rw [u32_ok, known], ?_⟩
    refine bind_ok.mpr ⟨info.tensorType, _, lift_ok.mpr ⟨tensorType_fromId.mpr known, rfl⟩, ?_⟩
    exact bind_ok.mpr ⟨info.offset, rest, u64_ok.mpr rfl, rfl⟩

end Pictor.Gguf

namespace Pictor.Gguf
open BuildArith Cursor InsertAll LittleEndian Outcome List

/-- The map of the entries. The last entry of a key remains. -/
def Layout.metadataStore (layout : Layout) : MetadataStore := insertAll layout.metadata ∅

def Layout.tensorStore (layout : Layout) : TensorStore :=
  insertAll (layout.tensors.map fun info => (info.name, info)) ∅

/-- The file that the reader reports. -/
def Layout.file (layout : Layout) (data : List UInt8) (dataOffset : UInt64) : GgufFile :=
  ⟨⟨layout.version, UInt64.ofNat layout.tensors.length, UInt64.ofNat layout.metadata.length⟩,
    layout.metadataStore, layout.tensorStore, dataOffset, data⟩

/-- A file starts with a layout. -/
def HasLayout (data : List UInt8) : Prop := ∃ layout used rest, EncodesLayout layout used ∧ data = used ++ rest

variable {Value : Type} {value : Value} {data rest before after used : List UInt8} {pos : Nat} {count : UInt64}
  {layout : Layout}

theorem mapError_ok {step : Except BonsaiError Value} {change : BonsaiError → BonsaiError} :
    step.mapError change = .ok value ↔ step = .ok value := by
  cases step with
  | error error => exact ⟨(nomatch ·), (nomatch ·)⟩
  | ok other => exact Iff.rfl

theorem headerField_ok {bytes : List UInt8} {read : Cursor Value} :
    (headerField data read).run bytes = .ok (value, rest) ↔ read bytes = .ok (value, rest) :=
  mapError_ok

theorem except_guard_ok {wrong : Prop} [Decidable wrong] {error : BonsaiError} {next : Except BonsaiError Value} :
    (if wrong then throw error else next) = .ok value ↔ ¬wrong ∧ next = .ok value := by
  by_cases failed : wrong
  · rw [if_pos failed]
    exact ⟨(nomatch ·), fun both => absurd failed both.1⟩
  · rw [if_neg failed]
    exact ⟨fun read => ⟨failed, read⟩, fun both => both.2⟩

theorem header_ok {header : GgufHeader} : GgufHeader.parse data 0 = .ok (header, pos) ↔
      ∃ used rest, EncodesHeader header used ∧ data = used ++ rest ∧ pos = used.length := by
  rw [GgufHeader.parse, drop_zero, bind_eq_ok]
  constructor
  · rintro ⟨⟨magic, afterMagic⟩, first, guarded⟩
    obtain rfl := u32_ok.mp (mapError_ok.mp first)
    obtain ⟨named, versioned⟩ := except_guard_ok.mp guarded
    obtain ⟨⟨version, afterVersion⟩, second, supported⟩ := bind_eq_ok.mp versioned
    obtain rfl := u32_ok.mp (headerField_ok.mp second)
    obtain ⟨known, counted⟩ := except_guard_ok.mp supported
    obtain ⟨⟨tensorCount, afterTensors⟩, third, listed⟩ := bind_eq_ok.mp counted
    obtain rfl := u64_ok.mp (headerField_ok.mp third)
    obtain ⟨⟨metadataKvCount, rest⟩, fourth, done⟩ := bind_eq_ok.mp listed
    obtain rfl := u64_ok.mp (headerField_ok.mp fourth)
    cases done
    refine ⟨_, rest, ⟨by simpa only [not_and_or, not_not] using known, rfl⟩, ?_, ?_⟩
    · rw [not_not.mp named]
      simp only [append_assoc]
    · simp only [length_append, length_leBytes]
      omega
  · rintro ⟨_, rest, ⟨known, rfl⟩, rfl, rfl⟩
    simp only [append_assoc]
    refine ⟨⟨ggufMagic, _⟩, mapError_ok.mpr (u32_ok.mpr rfl), except_guard_ok.mpr ⟨not_not.mpr rfl, ?_⟩⟩
    refine bind_eq_ok.mpr ⟨⟨header.version, _⟩, headerField_ok.mpr (u32_ok.mpr rfl), ?_⟩
    refine except_guard_ok.mpr ⟨by simpa only [not_and_or, not_not] using known, ?_⟩
    refine bind_eq_ok.mpr ⟨⟨header.tensorCount, _⟩, headerField_ok.mpr (u64_ok.mpr rfl), ?_⟩
    refine bind_eq_ok.mpr ⟨⟨header.metadataKvCount, rest⟩, headerField_ok.mpr (u64_ok.mpr rfl), ?_⟩
    refine congrArg Except.ok (Prod.ext rfl ?_)
    simp only [length_append, length_leBytes]
    omega

/-- A section of the file is read behind the bytes before it. -/
theorem section_ok {Item Store : Type} {read : Cursor Item} {encodes : Item → List UInt8 → Prop}
    (reads : ∀ bytes item rest, read bytes = .ok (item, rest) ↔ ∃ used, encodes item used ∧ bytes = used ++ rest)
    {store : List Item → Store} {count : Nat} {before after : List UInt8} {result : Store} {pos : Nat} : (do
      let (items, rest) ← (many read count).run ((before ++ after).drop before.length)
      return (store items, (before ++ after).length - rest.length) : Except BonsaiError (Store × Nat)) =
        .ok (result, pos) ↔
      ∃ items used rest, items.length = count ∧ EncodesAll encodes items used ∧ after = used ++ rest ∧
        result = store items ∧ pos = (before ++ used).length := by
  rw [drop_left, bind_eq_ok]
  constructor
  · rintro ⟨⟨items, rest⟩, listed, done⟩
    obtain ⟨used, full, encoded, rfl⟩ := (many_ok (fun bytes _ => reads bytes) le_rfl).mp listed
    cases done
    refine ⟨items, used, rest, full, encoded, rfl, rfl, ?_⟩
    simp only [length_append]
    omega
  · rintro ⟨items, used, rest, full, encoded, rfl, rfl, rfl⟩
    refine ⟨⟨items, rest⟩, (many_ok (fun bytes _ => reads bytes) le_rfl).mpr ⟨used, full, encoded, rfl⟩, ?_⟩
    refine congrArg Except.ok (Prod.ext rfl ?_)
    simp only [length_append]
    omega

theorem metadataStore_ok {store : MetadataStore} :
    MetadataStore.parse (before ++ after) before.length count = .ok (store, pos) ↔
      ∃ entries used rest, entries.length = count.toNat ∧ EncodesAll EncodesEntry entries used ∧
        after = used ++ rest ∧ store = insertAll entries ∅ ∧ pos = (before ++ used).length :=
  section_ok fun _ _ _ => readKvPair_ok

theorem tensorStore_ok {store : TensorStore} :
    TensorStore.parse (before ++ after) before.length count = .ok (store, pos) ↔
      ∃ infos used rest, infos.length = count.toNat ∧ EncodesAll EncodesTensor infos used ∧
        after = used ++ rest ∧ store = insertAll (infos.map fun info => (info.name, info)) ∅ ∧
        pos = (before ++ used).length := by
  rw [TensorStore.parse]
  exact @section_ok _ _ _ _ (fun _ _ _ => readTensorInfo_ok)
    (fun infos => insertAll (infos.map fun info => (info.name, info)) ∅) _ _ _ _ _

theorem encodesLayout_positive (encoded : EncodesLayout layout used) : 0 < used.length := by
  obtain ⟨header, start, metadata, tensors, ⟨_, rfl⟩, _, _, _, _, _, rfl⟩ := encoded
  simp only [length_append, length_leBytes]
  omega

/-- A file with a layout fails only at the alignment. -/
theorem parse_encoded (encoded : EncodesLayout layout used) (rest : List UInt8) (build : Build) :
    GgufFile.parse build (used ++ rest) =
      (alignOffset build (UInt64.ofNat used.length) (GgufFile.alignment layout.metadataStore)).map
        (layout.file (used ++ rest)) := by
  obtain ⟨header, start, metadata, tensors, first, version, entries, infos, second, third, rfl⟩ := encoded
  have readHeader : GgufHeader.parse (start ++ metadata ++ tensors ++ rest) 0 = .ok (header, start.length) := by
    rw [header_ok]
    exact ⟨start, metadata ++ (tensors ++ rest), first, by simp only [append_assoc], rfl⟩
  have readMetadata : MetadataStore.parse (start ++ metadata ++ tensors ++ rest) start.length
      header.metadataKvCount = .ok (layout.metadataStore, (start ++ metadata).length) := by
    rw [append_assoc, append_assoc, metadataStore_ok]
    exact ⟨layout.metadata, metadata, tensors ++ rest, entries.symm, second, rfl, rfl, rfl⟩
  have readTensors : TensorStore.parse (start ++ metadata ++ tensors ++ rest) (start ++ metadata).length
      header.tensorCount = .ok (layout.tensorStore, (start ++ metadata ++ tensors).length) := by
    rw [append_assoc, tensorStore_ok]
    exact ⟨layout.tensors, tensors, rest, infos.symm, third, rfl, rfl, rfl⟩
  have counts : header = ⟨layout.version, UInt64.ofNat layout.tensors.length,
      UInt64.ofNat layout.metadata.length⟩ := by
    rw [← version, ← infos, ← entries, UInt64.ofNat_toNat, UInt64.ofNat_toNat]
  rw [GgufFile.parse, readHeader]
  simp only [returned, bind, Except.bind, readMetadata, readTensors]
  rw [counts]
  cases alignOffset build (UInt64.ofNat (start ++ metadata ++ tensors).length)
      (GgufFile.alignment layout.metadataStore) <;> rfl

/-- A file without a layout fails with an error. -/
theorem parse_unencoded (none : ¬HasLayout data) (build : Build) :
    ∃ error, GgufFile.parse build data = .error (.error error) := by
  rw [GgufFile.parse]
  cases readHeader : GgufHeader.parse data 0 with
  | error error => exact ⟨error, rfl⟩
  | ok result =>
      obtain ⟨header, pos⟩ := result
      obtain ⟨start, rest, first, rfl, rfl⟩ := header_ok.mp readHeader
      change ∃ error, (returned (MetadataStore.parse (start ++ rest) start.length header.metadataKvCount) >>= _) =
        Except.error (Failure.error error)
      cases readMetadata : MetadataStore.parse (start ++ rest) start.length header.metadataKvCount with
      | error error => exact ⟨error, rfl⟩
      | ok result =>
          obtain ⟨store, pos⟩ := result
          obtain ⟨entries, metadata, rest, full, second, rfl, rfl, rfl⟩ := metadataStore_ok.mp readMetadata
          rw [← append_assoc] at none ⊢
          change ∃ error, (returned (TensorStore.parse (start ++ metadata ++ rest) (start ++ metadata).length
            header.tensorCount) >>= _) = Except.error (Failure.error error)
          cases readTensors : TensorStore.parse (start ++ metadata ++ rest) (start ++ metadata).length
              header.tensorCount with
          | error error => exact ⟨error, rfl⟩
          | ok result =>
              obtain ⟨store, pos⟩ := result
              obtain ⟨infos, tensors, rest, full', third, rfl, _, _⟩ := tensorStore_ok.mp readTensors
              refine absurd ⟨⟨header.version, entries, infos⟩, _, rest, ?_, (append_assoc _ _ _).symm⟩ none
              exact ⟨header, start, metadata, tensors, first, rfl, full.symm, full'.symm, second, third, rfl⟩

/-- Items that are read by a cursor are the only ones at a place. -/
theorem encodesAll_unique {Item : Type} {read : Cursor Item} {encodes : Item → List UInt8 → Prop}
    (reads : ∀ bytes item rest, read bytes = .ok (item, rest) ↔ ∃ used, encodes item used ∧ bytes = used ++ rest)
    {items items' : List Item} {used' rest' : List UInt8} (count : items.length = items'.length)
    (encoded : EncodesAll encodes items used) (encoded' : EncodesAll encodes items' used')
    (same : used ++ rest = used' ++ rest') : items = items' ∧ used = used' ∧ rest = rest' := by
  have first : many read items'.length (used ++ rest) = .ok (items, rest) :=
    (many_ok (fun bytes _ => reads bytes) le_rfl).mpr ⟨used, count, encoded, rfl⟩
  have second : many read items'.length (used ++ rest) = .ok (items', rest') :=
    (many_ok (fun bytes _ => reads bytes) le_rfl).mpr ⟨used', rfl, encoded', same⟩
  rw [first] at second
  cases second
  exact ⟨rfl, append_cancel_right same, rfl⟩

/-- A file has at most one layout. -/
theorem layout_unique {layout' : Layout} {used' rest' : List UInt8} (encoded : EncodesLayout layout used)
    (encoded' : EncodesLayout layout' used') (same : used ++ rest = used' ++ rest') :
    layout = layout' ∧ used = used' ∧ rest = rest' := by
  obtain ⟨header, start, metadata, tensors, first, version, entries, infos, second, third, rfl⟩ := encoded
  obtain ⟨header', start', metadata', tensors', first', version', entries', infos', second', third', rfl⟩ :=
    encoded'
  simp only [append_assoc] at same
  have read := header_ok.mpr ⟨start, metadata ++ (tensors ++ rest), first, rfl, rfl⟩
  have read' := header_ok.mpr ⟨start', _, first', same, rfl⟩
  rw [read] at read'
  obtain ⟨rfl, long⟩ := Prod.mk.inj (Except.ok.inj read')
  obtain ⟨rfl, behind⟩ := append_inj same long
  obtain ⟨listed, rfl, further⟩ := encodesAll_unique (fun _ _ _ => readKvPair_ok) (entries.symm.trans entries')
    second second' behind
  obtain ⟨placed, rfl, rfl⟩ := encodesAll_unique (fun _ _ _ => readTensorInfo_ok) (infos.symm.trans infos')
    third third' further
  refine ⟨?_, rfl, rfl⟩
  cases layout
  cases layout'
  cases version
  cases version'
  cases listed
  cases placed
  rfl

/-- A file is read exactly if it has a layout and its alignment does not panic. -/
theorem parse_ok {build : Build} {file : GgufFile} :
    GgufFile.parse build data = .ok file ↔ ∃ layout used rest dataOffset, EncodesLayout layout used ∧
      data = used ++ rest ∧ file = layout.file data dataOffset ∧
      alignOffset build (UInt64.ofNat used.length) (GgufFile.alignment layout.metadataStore) = .ok dataOffset := by
  constructor
  · intro read
    by_cases has : HasLayout data
    · obtain ⟨layout, used, rest, encoded, rfl⟩ := has
      rw [parse_encoded encoded] at read
      cases aligned : alignOffset build (UInt64.ofNat used.length) (GgufFile.alignment layout.metadataStore) with
      | error failure =>
          rw [aligned] at read
          cases read
      | ok dataOffset =>
          rw [aligned] at read
          cases read
          exact ⟨layout, used, rest, dataOffset, encoded, rfl, rfl, aligned⟩
    · obtain ⟨error, failed⟩ := parse_unencoded has build
      rw [failed] at read
      cases read
  · rintro ⟨layout, used, rest, dataOffset, encoded, rfl, rfl, aligned⟩
    rw [parse_encoded encoded, aligned]
    rfl

end Pictor.Gguf
