import Pictor.Construction.Gguf.Streaming
import Pictor.Proof.Gguf.Format

namespace Pictor.Gguf
open Incremental LittleEndian Slice List

section Positions

variable {buf : List UInt8} {offset : Nat} {size depth : Nat} {Value : Type} {value : Value} {type : GgufValueType}
  {read : List UInt8 → MetadataValue}

/-- The bytes from a position on. -/
theorem slice_part (inside : offset + size ≤ buf.length) :
    (slice buf offset size).length = size ∧ slice buf offset size <+: buf.drop offset :=
  ⟨length_slice inside, List.take_prefix _ _⟩

theorem prefix_slice {used : List UInt8} (here : used <+: buf.drop offset) (inside : offset ≤ buf.length) :
    offset + used.length ≤ buf.length ∧ slice buf offset used.length = used := by
  have short := here.length_le
  rw [length_drop] at short
  refine ⟨by omega, ?_⟩
  rw [slice]
  exact (prefix_iff_eq_take.mp here).symm

/-- A prefix has two parts exactly if the second one follows the first one. -/
theorem prefix_append {first second : List UInt8} : first ++ second <+: buf.drop offset ↔
      first <+: buf.drop offset ∧ second <+: buf.drop (offset + first.length) := by
  constructor
  · rintro ⟨rest, same⟩
    refine ⟨⟨second ++ rest, by rw [← same, append_assoc]⟩, rest, ?_⟩
    rw [← drop_drop, ← same, append_assoc, drop_left]
  · rintro ⟨⟨rest, same⟩, later⟩
    rw [← drop_drop, ← same, drop_left] at later
    rw [← same]
    exact (prefix_append_right_inj first).mpr later

/-- An answer with a position reads exactly the format. -/
def Reads {Value : Type} (buf : List UInt8) (offset : Nat) (answer : Answer BonsaiError (Value × Nat))
    (encodes : Value → List UInt8 → Prop) : Prop :=
  ∀ value pos, answer = pure (value, pos) ↔
    ∃ used, encodes value used ∧ used <+: buf.drop offset ∧ pos = offset + used.length

theorem tryField_eq {bytes : List UInt8} (inside : offset ≤ buf.length) :
    tryField buf offset size = pure bytes ↔ bytes.length = size ∧ bytes <+: buf.drop offset := by
  rw [tryField]
  constructor
  · intro read
    split at read
    case isTrue => exact absurd read (pending_ne_pure _)
    case isFalse enough =>
        rw [← pure_inj read]
        exact slice_part (Nat.not_lt.mp enough)
  · rintro ⟨rfl, here⟩
    have whole := prefix_slice here inside
    rw [if_neg (Nat.not_lt.mpr whole.1), whole.2]

theorem failed_guard {wrong : Prop} [Decidable wrong] {error : BonsaiError} {next : Answer BonsaiError Value} :
    (if wrong then failed error else next) = pure value ↔ ¬wrong ∧ next = pure value := by
  by_cases beyond : wrong
  · rw [if_pos beyond]
    exact ⟨fun read => absurd read (failed_ne_pure _ _), fun both => absurd beyond both.1⟩
  · rw [if_neg beyond]
    exact ⟨fun read => ⟨beyond, read⟩, fun both => both.2⟩

theorem answered_eq {step : Except BonsaiError Value} : answered step = pure value ↔ step = .ok value := by
  cases step with
  | error error => exact ⟨fun read => absurd read (failed_ne_pure _ _), (nomatch ·)⟩
  | ok other => exact ⟨fun read => congrArg Except.ok (pure_inj read), fun same => by cases same; rfl⟩

theorem pure_eq {other : Value} : (pure value : Answer BonsaiError Value) = pure other ↔ value = other :=
  ⟨pure_inj, fun same => by rw [same]⟩

theorem tryReadGgufString_reads (inside : offset ≤ buf.length) :
    Reads buf offset (tryReadGgufString buf offset) EncodesString := by
  intro text pos
  rw [tryReadGgufString, bind_eq_pure]
  constructor
  · rintro ⟨lenBytes, first, guarded⟩
    obtain ⟨full, here⟩ := (tryField_eq inside).mp first
    obtain ⟨short, later⟩ := failed_guard.mp guarded
    obtain ⟨bytes, second, done⟩ := bind_eq_pure.mp later
    have behind := (prefix_slice here inside).1
    rw [full] at behind
    obtain ⟨size, there⟩ := (tryField_eq behind).mp second
    cases decoded : Utf8.decode bytes with
    | none =>
        rw [decoded] at done
        exact absurd done (failed_ne_pure _ _)
    | some other =>
        rw [decoded] at done
        obtain ⟨rfl, rfl⟩ := Prod.mk.inj (pure_inj done)
        obtain rfl := Utf8.decode_eq_some.mp decoded
        have len : lenBytes = leBytes 8 (Utf8.encode other).length := by
          rw [size, leBytes_readU64 full]
        refine ⟨leBytes 8 (Utf8.encode other).length ++ Utf8.encode other, ⟨?_, rfl⟩, ?_, ?_⟩
        · rw [size]
          exact Nat.not_lt.mp short
        · rw [prefix_append, ← len, full]
          exact ⟨here, there⟩
        · rw [length_append, length_leBytes, size, Nat.add_assoc]
  · rintro ⟨_, ⟨short, rfl⟩, here, rfl⟩
    have size : (readU64 (leBytes 8 (Utf8.encode text).length)).toNat = (Utf8.encode text).length :=
      readU64_toNat (lt_of_le_of_lt short (by decide))
    obtain ⟨first, second⟩ := prefix_append.mp here
    rw [length_leBytes] at second
    have behind := (prefix_slice first inside).1
    rw [length_leBytes] at behind
    refine ⟨_, (tryField_eq inside).mpr ⟨length_leBytes _ _, first⟩, failed_guard.mpr ?_⟩
    rw [size]
    refine ⟨Nat.not_lt.mpr short, bind_eq_pure.mpr ⟨_, (tryField_eq behind).mpr ⟨rfl, second⟩, ?_⟩⟩
    rw [Utf8.decode_encode, length_append, length_leBytes, Nat.add_assoc]

/-- Several values are read exactly if each of them is. -/
theorem tryMany_reads {read : Nat → Answer BonsaiError (Value × Nat)} {encodes : Value → List UInt8 → Prop}
    (reads : ∀ pos, offset ≤ pos → pos ≤ buf.length → Reads buf pos (read pos) encodes) (count : Nat)
    (inside : offset ≤ buf.length) : Reads buf offset (tryMany read count offset) fun values used =>
      values.length = count ∧ EncodesAll encodes values used := by
  induction count generalizing offset with
  | zero =>
      intro values pos
      rw [tryMany, pure_eq, Prod.mk.injEq]
      constructor
      · rintro ⟨rfl, rfl⟩
        exact ⟨[], ⟨rfl, encodesAll_nil.mpr rfl⟩, List.nil_prefix, rfl⟩
      · rintro ⟨used, ⟨none, encoded⟩, _, rfl⟩
        obtain rfl := length_eq_zero_iff.mp none
        rw [encodesAll_nil.mp encoded]
        exact ⟨rfl, rfl⟩
  | succ count ih =>
      intro values pos
      rw [tryMany, bind_eq_pure]
      constructor
      · rintro ⟨⟨value, middle⟩, first, listed⟩
        obtain ⟨front, encoded, here, rfl⟩ := (reads offset le_rfl inside value middle).mp first
        obtain ⟨⟨others, last⟩, more, done⟩ := bind_eq_pure.mp listed
        obtain ⟨rfl, rfl⟩ := Prod.mk.inj (pure_inj done)
        have behind := (prefix_slice here inside).1
        obtain ⟨back, ⟨full, encoded'⟩, there, rfl⟩ :=
          (ih (fun pos after => reads pos (by omega)) behind others last).mp more
        refine ⟨front ++ back, ⟨by rw [length_cons, full], ?_⟩, prefix_append.mpr ⟨here, there⟩, ?_⟩
        · exact encodesAll_cons.mpr ⟨front, back, encoded, encoded', rfl⟩
        · rw [length_append, Nat.add_assoc]
      · rintro ⟨used, ⟨full, encoded⟩, here, rfl⟩
        obtain ⟨value, others, rfl⟩ := exists_cons_of_length_eq_add_one full
        obtain ⟨front, back, first, later, rfl⟩ := encodesAll_cons.mp encoded
        obtain ⟨before, after⟩ := prefix_append.mp here
        have behind := (prefix_slice before inside).1
        refine ⟨(value, offset + front.length), (reads offset le_rfl inside _ _).mpr ⟨front, first, before, rfl⟩, ?_⟩
        refine bind_eq_pure.mpr ⟨(others, offset + front.length + back.length), ?_, ?_⟩
        · exact (ih (fun pos after => reads pos (by omega)) behind _ _).mpr
            ⟨back, ⟨Nat.succ_inj.mp full, later⟩, after, rfl⟩
        · rw [length_append, Nat.add_assoc]

theorem tryFixed_reads (shape : type.fixed = some (size, read)) (inside : offset ≤ buf.length) :
    Reads buf offset (tryFixed buf offset size read) (EncodesValue type) := by
  intro value pos
  rw [tryFixed, bind_eq_pure]
  constructor
  · rintro ⟨bytes, first, done⟩
    obtain ⟨full, here⟩ := (tryField_eq inside).mp first
    obtain ⟨rfl, rfl⟩ := Prod.mk.inj (pure_inj done)
    exact ⟨bytes, (encodesValue_fixed shape).mpr ⟨full, rfl⟩, here, by rw [full]⟩
  · rintro ⟨used, encoded, here, rfl⟩
    obtain ⟨rfl, rfl⟩ := (encodesValue_fixed shape).mp encoded
    exact ⟨used, (tryField_eq inside).mpr ⟨rfl, here⟩, rfl⟩

theorem tryReadValue_fixed (shape : type.fixed = some (size, read)) (depth : Nat) :
    tryReadValue buf depth offset type = tryFixed buf offset size read := by
  cases type <;> cases shape <;> cases depth <;> rfl

theorem tryReadString_reads (inside : offset ≤ buf.length) :
    Reads buf offset (tryReadValue buf depth offset .string) (EncodesValue .string) := by
  have unfolded : tryReadValue buf depth offset .string =
      (tryReadGgufString buf offset >>= fun result => pure (.string result.1, result.2)) := by
    cases depth <;> rfl
  intro value pos
  rw [unfolded, bind_eq_pure]
  constructor
  · rintro ⟨⟨text, last⟩, read, done⟩
    obtain ⟨rfl, rfl⟩ := Prod.mk.inj (pure_inj done)
    obtain ⟨used, encoded, here, rfl⟩ := (tryReadGgufString_reads inside text last).mp read
    exact ⟨used, encodesValue_string.mpr ⟨text, rfl, encoded⟩, here, rfl⟩
  · rintro ⟨used, encoded, here, rfl⟩
    obtain ⟨text, rfl, inner⟩ := encodesValue_string.mp encoded
    exact ⟨(text, _), (tryReadGgufString_reads inside _ _).mpr ⟨used, inner, here, rfl⟩, rfl⟩

theorem take_header {first second : List UInt8} (full : first.length = 4) :
    (first ++ second).take 4 = first ∧ (first ++ second).drop 4 = second := by
  rw [← full, take_left, drop_left]
  exact ⟨rfl, rfl⟩

/-- An array is read exactly if its elements are. -/
theorem tryReadArray_reads (inside : offset ≤ buf.length)
    (elements : ∀ type pos, pos ≤ buf.length → offset + 12 ≤ pos → Reads buf pos (tryReadValue buf depth pos type) (EncodesValue type)) :
    Reads buf offset (tryReadValue buf (depth + 1) offset .array) (EncodesValue .array) := by
  intro value pos
  rw [tryReadValue, bind_eq_pure]
  constructor
  · rintro ⟨bytes, first, typed⟩
    obtain ⟨full, here⟩ := (tryField_eq inside).mp first
    have behind := (prefix_slice here inside).1
    rw [full] at behind
    obtain ⟨elemType, known, guarded⟩ := bind_eq_pure.mp typed
    have resolved := valueType_fromId.mp (answered_eq.mp known)
    obtain ⟨few, listed⟩ := failed_guard.mp guarded
    obtain ⟨⟨values, last⟩, read, done⟩ := bind_eq_pure.mp listed
    obtain ⟨rfl, rfl⟩ := Prod.mk.inj (pure_inj done)
    obtain ⟨used, ⟨counted, encoded⟩, there, rfl⟩ := (tryMany_reads
      (fun pos after within => elements elemType pos within after) _ behind _ _).mp read
    have parts : bytes = leBytes 4 elemType.id ++ leBytes 8 values.length := by
      rw [← resolved, counted, leBytes_readU32 (by rw [length_take, full]; rfl),
        leBytes_readU64 (by rw [length_drop, full]), take_append_drop]
    refine ⟨bytes ++ used, ?_, ?_, ?_⟩
    · rw [parts]
      refine encodesValue_array.mpr ⟨elemType, values, used, rfl, ?_, encoded, rfl⟩
      rw [counted]
      exact Nat.not_lt.mp few
    · rw [prefix_append, full]
      exact ⟨here, there⟩
    · rw [length_append, full, Nat.add_assoc]
  · rintro ⟨_, encoded, here, rfl⟩
    obtain ⟨elemType, values, used, rfl, few, inner, rfl⟩ := encodesValue_array.mp encoded
    have known : (readU32 (leBytes 4 elemType.id)).toNat = elemType.id :=
      readU32_toNat (by cases elemType <;> decide)
    have count : (readU64 (leBytes 8 values.length)).toNat = values.length :=
      readU64_toNat (lt_of_le_of_lt few (by decide))
    have size : (leBytes 4 elemType.id ++ leBytes 8 values.length).length = 12 := by
      rw [length_append, length_leBytes, length_leBytes]
    obtain ⟨before, after⟩ := prefix_append.mp here
    rw [size] at after
    have behind := (prefix_slice before inside).1
    rw [size] at behind
    obtain ⟨taken, dropped⟩ := @take_header (leBytes 4 elemType.id) (leBytes 8 values.length)
      (length_leBytes _ _)
    refine ⟨_, (tryField_eq inside).mpr ⟨size, before⟩, ?_⟩
    rw [taken, dropped]
    dsimp only
    rw [count]
    refine bind_eq_pure.mpr ⟨elemType, answered_eq.mpr (valueType_fromId.mpr known), ?_⟩
    refine failed_guard.mpr ⟨Nat.not_lt.mpr few, bind_eq_pure.mpr ⟨(values, offset + 12 + used.length), ?_, ?_⟩⟩
    · exact (tryMany_reads (fun pos after within => elements elemType pos within after) _ behind _ _).mpr
        ⟨used, ⟨rfl, inner⟩, after, rfl⟩
    · rw [length_append, size, Nat.add_assoc]

/-- The nesting is no deeper than the bytes are many. -/
theorem tryReadValue_reads (inside : offset ≤ buf.length) (deep : buf.length - offset ≤ depth) :
    Reads buf offset (tryReadValue buf depth offset type) (EncodesValue type) := by
  induction depth generalizing offset type with
  | zero =>
      cases shape : type.fixed with
      | some both =>
          rw [tryReadValue_fixed shape]
          exact tryFixed_reads shape inside
      | none =>
          rcases fixed_none shape with rfl | rfl
          · exact tryReadString_reads inside
          · intro value pos
            rw [tryReadValue]
            refine ⟨fun read => absurd read (pending_ne_pure _), ?_⟩
            rintro ⟨_, encoded, here, rfl⟩
            obtain ⟨elemType, values, used, _, _, _, rfl⟩ := encodesValue_array.mp encoded
            have long := (prefix_slice here inside).1
            simp only [length_append, length_leBytes] at long
            omega
  | succ depth ih =>
      cases shape : type.fixed with
      | some both =>
          rw [tryReadValue_fixed shape]
          exact tryFixed_reads shape inside
      | none =>
          rcases fixed_none shape with rfl | rfl
          · exact tryReadString_reads inside
          · exact tryReadArray_reads inside fun type pos within after => ih within (by omega)

end Positions

variable {buf : List UInt8}

theorem tryReadEntry_reads : Reads buf 0 (tryReadEntry buf) EncodesEntry := by
  intro entry pos
  rw [tryReadEntry, bind_eq_pure]
  constructor
  · rintro ⟨⟨key, afterKey⟩, first, typed⟩
    obtain ⟨front, named, here, rfl⟩ := (tryReadGgufString_reads (Nat.zero_le _) _ _).mp first
    have behind := (prefix_slice here (Nat.zero_le _)).1
    obtain ⟨typeBytes, second, known⟩ := bind_eq_pure.mp typed
    obtain ⟨full, there⟩ := (tryField_eq behind).mp second
    have after := (prefix_slice there behind).1
    rw [full] at after
    obtain ⟨type, known, valued⟩ := bind_eq_pure.mp known
    have resolved := valueType_fromId.mp (answered_eq.mp known)
    obtain ⟨⟨value, last⟩, read, done⟩ := bind_eq_pure.mp valued
    obtain ⟨rfl, rfl⟩ := Prod.mk.inj (pure_inj done)
    obtain ⟨back, encoded, further, rfl⟩ := (tryReadValue_reads after le_rfl _ _).mp read
    refine ⟨front ++ typeBytes ++ back, ⟨type, front, back, named, encoded, ?_⟩, ?_, ?_⟩
    · rw [← resolved, leBytes_readU32 full]
    · rw [prefix_append, prefix_append, length_append, full, ← Nat.add_assoc]
      exact ⟨⟨here, there⟩, further⟩
    · simp only [length_append, full, Nat.add_assoc]
  · rintro ⟨_, ⟨type, key, value, named, encoded, rfl⟩, here, rfl⟩
    obtain ⟨before, further⟩ := prefix_append.mp here
    obtain ⟨first, there⟩ := prefix_append.mp before
    rw [length_append, length_leBytes, ← Nat.add_assoc] at further
    have behind := (prefix_slice first (Nat.zero_le _)).1
    have after := (prefix_slice there behind).1
    rw [length_leBytes] at after
    have known : (readU32 (leBytes 4 type.id)).toNat = type.id :=
      readU32_toNat (by cases type <;> decide)
    refine ⟨(entry.1, 0 + key.length), (tryReadGgufString_reads (Nat.zero_le _) _ _).mpr
      ⟨key, named, first, rfl⟩, ?_⟩
    refine bind_eq_pure.mpr ⟨_, (tryField_eq behind).mpr ⟨length_leBytes _ _, there⟩, ?_⟩
    refine bind_eq_pure.mpr ⟨type, answered_eq.mpr (valueType_fromId.mpr known), ?_⟩
    refine bind_eq_pure.mpr ⟨(entry.2, 0 + key.length + 4 + value.length), ?_, ?_⟩
    · exact (tryReadValue_reads after le_rfl _ _).mpr ⟨value, encoded, further, rfl⟩
    · simp only [length_append, length_leBytes, Nat.add_assoc]

variable {bytes : List UInt8}

/-- The dimensions of a field. -/
theorem exists_shape {count : Nat} (full : bytes.length = count * 8) :
    ∃ shape : List UInt64, shape.length = count ∧ bytes = shape.flatMap fun dim => leBytes 8 dim.toNat := by
  induction count generalizing bytes with
  | zero => exact ⟨[], rfl, length_eq_zero_iff.mp (by omega)⟩
  | succ count ih =>
      have first : (bytes.take 8).length = 8 := by
        rw [length_take]
        omega
      obtain ⟨shape, counted, same⟩ := @ih (bytes.drop 8) (by rw [length_drop]; omega)
      refine ⟨readU64 (bytes.take 8) :: shape, by rw [length_cons, counted], ?_⟩
      rw [flatMap_cons, leBytes_readU64 first, ← same, take_append_drop]

theorem length_shape (shape : List UInt64) :
    (shape.flatMap fun dim => leBytes 8 dim.toNat).length = shape.length * 8 := by
  induction shape with
  | nil => rfl
  | cons dim shape ih =>
      rw [flatMap_cons, length_append, ih, length_leBytes, length_cons]
      omega

theorem slice_shape {shape : List UInt64} {i : Nat} (inside : i < shape.length) :
    readU64 (slice (shape.flatMap fun dim => leBytes 8 dim.toNat) (i * 8) 8) = shape.getD i 0 := by
  induction shape generalizing i with
  | nil => cases inside
  | cons dim shape ih =>
      cases i with
      | zero =>
          rw [flatMap_cons, slice, Nat.zero_mul, drop_zero,
            take_left' (length_leBytes _ _), readU64_leBytes]
          rfl
      | succ i =>
          have skip : (i + 1) * 8 = (leBytes 8 dim.toNat).length + i * 8 := by
            rw [length_leBytes]
            omega
          rw [flatMap_cons, slice, skip, ← drop_drop, drop_left, getD_cons_succ]
          exact ih (Nat.lt_of_succ_lt_succ inside)

theorem streamed_dims (shape : List UInt64) : (fun i : Fin 4 => if i.val < shape.length then
      readU64 (slice (shape.flatMap fun dim => leBytes 8 dim.toNat) (i.val * 8) 8) else 0) =
      fun i : Fin 4 => shape.getD i 0 := by
  funext i
  split
  case isTrue inside => exact slice_shape inside
  case isFalse outside => exact (getD_eq_default _ _ (Nat.not_lt.mp outside)).symm

/-- The parser keeps four dimensions of a tensor and their number. -/
def TensorInfo.streamed (info : TensorInfo) : StreamedTensorInfo :=
  ⟨info.name, UInt32.ofNat info.shape.length, fun i => info.shape.getD i 0, info.tensorType, info.offset⟩

theorem tryReadTensorInfo_reads : Reads buf 0 (tryReadTensorInfo buf) fun streamed used =>
    ∃ info, streamed = info.streamed ∧ EncodesTensor info used := by
  intro streamed pos
  rw [tryReadTensorInfo, bind_eq_pure]
  constructor
  · rintro ⟨⟨name, afterName⟩, first, counted⟩
    obtain ⟨front, named, here, rfl⟩ := (tryReadGgufString_reads (Nat.zero_le _) _ _).mp first
    have behind := (prefix_slice here (Nat.zero_le _)).1
    obtain ⟨countBytes, second, guarded⟩ := bind_eq_pure.mp counted
    obtain ⟨full, there⟩ := (tryField_eq behind).mp second
    have after := (prefix_slice there behind).1
    rw [full] at after
    obtain ⟨few, listed⟩ := failed_guard.mp guarded
    obtain ⟨shapeBytes, third, typed⟩ := bind_eq_pure.mp listed
    obtain ⟨sized, shaped⟩ := (tryField_eq after).mp third
    have beyond := (prefix_slice shaped after).1
    rw [sized] at beyond
    obtain ⟨typeBytes, fourth, known⟩ := bind_eq_pure.mp typed
    obtain ⟨full', further⟩ := (tryField_eq beyond).mp fourth
    have onward := (prefix_slice further beyond).1
    rw [full'] at onward
    obtain ⟨type, known, placed⟩ := bind_eq_pure.mp known
    have resolved := tensorType_fromId.mp (answered_eq.mp known)
    obtain ⟨offsetBytes, fifth, done⟩ := bind_eq_pure.mp placed
    obtain ⟨full'', final⟩ := (tryField_eq onward).mp fifth
    obtain ⟨rfl, rfl⟩ := Prod.mk.inj (pure_inj done)
    obtain ⟨shape, count, rfl⟩ := exists_shape sized
    let info : TensorInfo := ⟨name, shape, type, readU64 offsetBytes⟩
    refine ⟨front ++ countBytes ++ (shape.flatMap fun dim => leBytes 8 dim.toNat) ++ typeBytes ++ offsetBytes,
      ⟨info, ?_, front, named, ?_, ?_⟩, ?_, ?_⟩
    · rw [← count, streamed_dims, TensorInfo.streamed, count, UInt32.ofNat_toNat]
    · change shape.length ≤ _
      rw [count]
      exact Nat.not_lt.mp few
    · change _ = front ++ leBytes 4 shape.length ++ (shape.flatMap fun dim => leBytes 8 dim.toNat) ++
        leBytes 4 type.id ++ leBytes 8 (readU64 offsetBytes).toNat
      rw [count, leBytes_readU32 full, ← resolved, leBytes_readU32 full', leBytes_readU64 full'']
    · simp only [prefix_append, length_append, full, sized, full', ← Nat.add_assoc]
      exact ⟨⟨⟨⟨here, there⟩, shaped⟩, further⟩, final⟩
    · simp only [length_append, full, sized, full', full'', ← Nat.add_assoc]
  · rintro ⟨_, ⟨info, rfl, name, named, few, rfl⟩, here, rfl⟩
    simp only [prefix_append, length_append, length_leBytes, length_shape, ← Nat.add_assoc] at here
    obtain ⟨⟨⟨⟨first, there⟩, shaped⟩, further⟩, final⟩ := here
    have behind := (prefix_slice first (Nat.zero_le _)).1
    have after := (prefix_slice there behind).1
    rw [length_leBytes] at after
    have beyond := (prefix_slice shaped after).1
    rw [length_shape] at beyond
    have onward := (prefix_slice further beyond).1
    rw [length_leBytes] at onward
    have count : (readU32 (leBytes 4 info.shape.length)).toNat = info.shape.length :=
      readU32_toNat (lt_of_le_of_lt few (by decide))
    have known : (readU32 (leBytes 4 info.tensorType.id)).toNat = info.tensorType.id :=
      readU32_toNat (by cases info.tensorType <;> decide)
    refine ⟨(info.name, 0 + name.length), (tryReadGgufString_reads (Nat.zero_le _) _ _).mpr
      ⟨name, named, first, rfl⟩, ?_⟩
    refine bind_eq_pure.mpr ⟨_, (tryField_eq behind).mpr ⟨length_leBytes _ _, there⟩, failed_guard.mpr ?_⟩
    rw [count]
    refine ⟨Nat.not_lt.mpr few, bind_eq_pure.mpr ⟨_, (tryField_eq after).mpr ⟨length_shape _, shaped⟩, ?_⟩⟩
    refine bind_eq_pure.mpr ⟨_, (tryField_eq beyond).mpr ⟨length_leBytes _ _, further⟩, ?_⟩
    refine bind_eq_pure.mpr ⟨info.tensorType, answered_eq.mpr (tensorType_fromId.mpr known), ?_⟩
    refine bind_eq_pure.mpr ⟨_, (tryField_eq onward).mpr ⟨length_leBytes _ _, final⟩, ?_⟩
    have nDims : readU32 (leBytes 4 info.shape.length) = UInt32.ofNat info.shape.length :=
      UInt32.ofNat_toNat.symm.trans (congrArg UInt32.ofNat count)
    rw [streamed_dims, nDims, readU64_leBytes]
    simp only [length_append, length_leBytes, length_shape, ← Nat.add_assoc]
    rfl

theorem header_slices (magic version : UInt32) (tensorCount metadataKvCount : UInt64) (full : bytes.length = 24) :
    (readU32 (slice bytes 0 4) = magic ∧ readU32 (slice bytes 4 4) = version ∧
      readU64 (slice bytes 8 8) = tensorCount ∧ readU64 (slice bytes 16 8) = metadataKvCount) ↔
      bytes = leBytes 4 magic.toNat ++ leBytes 4 version.toNat ++ leBytes 8 tensorCount.toNat ++
        leBytes 8 metadataKvCount.toNat := by
  have parts : bytes = slice bytes 0 4 ++ slice bytes 4 4 ++ slice bytes 8 8 ++ slice bytes 16 8 := by
    have whole := slice_whole bytes
    rw [full, slice_add bytes 0 16 8, slice_add bytes 0 8 8, slice_add bytes 0 4 4] at whole
    exact whole.symm
  have length (offset size : Nat) (inside : offset + size ≤ 24) : (slice bytes offset size).length = size :=
    (slice_part (full ▸ inside)).1
  constructor
  · rintro ⟨rfl, rfl, rfl, rfl⟩
    rw [leBytes_readU32 (length 0 4 (by decide)), leBytes_readU32 (length 4 4 (by decide)),
      leBytes_readU64 (length 8 8 (by decide)), leBytes_readU64 (length 16 8 (by decide))]
    exact parts
  · intro same
    rw [parts] at same
    obtain ⟨same, fourth⟩ := append_inj' same (by rw [length 16 8 (by decide), length_leBytes])
    obtain ⟨same, third⟩ := append_inj' same (by rw [length 8 8 (by decide), length_leBytes])
    obtain ⟨first, second⟩ := append_inj' same (by rw [length 4 4 (by decide), length_leBytes])
    rw [first, second, third, fourth]
    exact ⟨readU32_leBytes _, readU32_leBytes _, readU64_leBytes _, readU64_leBytes _⟩

theorem tryReadHeader_reads : Reads buf 0 (tryReadHeader buf) fun counts used =>
    EncodesHeader ⟨counts.1, counts.2.1, counts.2.2⟩ used := by
  rintro ⟨version, tensorCount, metadataKvCount⟩ pos
  rw [tryReadHeader, bind_eq_pure]
  constructor
  · rintro ⟨bytes, first, guarded⟩
    obtain ⟨full, here⟩ := (tryField_eq (Nat.zero_le _)).mp first
    obtain ⟨named, versioned⟩ := failed_guard.mp guarded
    obtain ⟨known, done⟩ := failed_guard.mp versioned
    obtain ⟨counts, rfl⟩ := Prod.mk.inj (pure_inj done)
    obtain ⟨rfl, rfl, rfl⟩ : _ ∧ _ ∧ _ := by
      simpa only [Prod.mk.injEq] using counts
    refine ⟨bytes, ⟨by simpa only [not_and_or, not_not] using known, ?_⟩, here, by rw [full, Nat.zero_add]⟩
    exact (header_slices _ _ _ _ full).mp ⟨not_not.mp named, rfl, rfl, rfl⟩
  · rintro ⟨used, ⟨known, same⟩, here, rfl⟩
    have full : used.length = 24 := by
      rw [same]
      simp only [length_append, length_leBytes]
    obtain ⟨magic, rfl, rfl, rfl⟩ := (header_slices _ _ _ _ full).mpr same
    refine ⟨used, (tryField_eq (Nat.zero_le _)).mpr ⟨full, here⟩, failed_guard.mpr ⟨not_not.mpr magic, ?_⟩⟩
    refine failed_guard.mpr ⟨by simpa only [not_and_or, not_not] using known, ?_⟩
    rw [full]
    rfl

end Pictor.Gguf
