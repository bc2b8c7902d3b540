import Mathlib.Data.List.Basic

namespace Pictor.Utf8
open List
open String (utf8EncodeChar)

def encode (chars : List Char) : List UInt8 := chars.flatMap utf8EncodeChar

@[simp] theorem encode_nil : encode [] = [] := rfl

@[simp] theorem encode_cons (char : Char) (chars : List Char) :
    encode (char :: chars) = utf8EncodeChar char ++ encode chars := rfl

@[simp] theorem encode_append (chars chars' : List Char) :
    encode (chars ++ chars') = encode chars ++ encode chars' := flatMap_append

/-- The first character of the bytes. -/
def decodeChar? (bytes : List UInt8) : Option Char := bytes.toByteArray.utf8DecodeChar? 0

/-- The characters from the start, and the bytes from the first failure on. -/
def decodePrefix : Nat → List UInt8 → List Char × List UInt8
  | 0, bytes => ([], bytes)
  | bound + 1, bytes =>
      match decodeChar? bytes with
      | none => ([], bytes)
      | some char =>
          let rest := decodePrefix bound (bytes.drop char.utf8Size)
          (char :: rest.1, rest.2)

/-- The longest start of the bytes that is UTF-8, and the rest. -/
def validPrefix (bytes : List UInt8) : List Char × List UInt8 := decodePrefix bytes.length bytes

def decode (bytes : List UInt8) : Option (List Char) :=
  if (validPrefix bytes).2 = [] then some (validPrefix bytes).1 else none

variable {bytes : List UInt8} {char : Char} {chars : List Char}

theorem decodeChar?_eq_some : decodeChar? bytes = some char ↔ ∃ rest, bytes = utf8EncodeChar char ++ rest := by
  constructor
  · intro found
    obtain ⟨rest, parts⟩ := ByteArray.exists_of_utf8DecodeChar?_eq_some found
    have listed : rest = rest.data.toList.toByteArray := by
      ext1
      rw [data_toByteArray, Array.toArray_toList]
    rw [listed, ← toByteArray_append, toByteArray_inj] at parts
    exact ⟨_, parts⟩
  · rintro ⟨rest, rfl⟩
    rw [decodeChar?, toByteArray_append]
    exact ByteArray.utf8DecodeChar?_utf8EncodeChar_append

@[simp] theorem decodeChar?_append (char : Char) (rest : List UInt8) :
    decodeChar? (utf8EncodeChar char ++ rest) = some char := decodeChar?_eq_some.mpr ⟨rest, rfl⟩

theorem utf8EncodeChar_ne_nil (char : Char) : utf8EncodeChar char ≠ [] := by
  intro empty
  have length := String.length_utf8EncodeChar char
  have positive := char.utf8Size_pos
  rw [empty] at length
  simp only [length_nil] at length
  omega

@[simp] theorem drop_utf8Size (char : Char) (rest : List UInt8) :
    (utf8EncodeChar char ++ rest).drop char.utf8Size = rest := by
  rw [← String.length_utf8EncodeChar, drop_left]

theorem decodePrefix_spec (bound : Nat) (bytes : List UInt8) (enough : bytes.length ≤ bound) :
    encode (decodePrefix bound bytes).1 ++ (decodePrefix bound bytes).2 = bytes ∧
      decodeChar? (decodePrefix bound bytes).2 = none := by
  have stuck : decodeChar? [] = none := by decide
  induction bound generalizing bytes with
  | zero =>
      rw [length_eq_zero_iff.mp (Nat.le_zero.mp enough)]
      exact ⟨rfl, stuck⟩
  | succ bound ih =>
      rw [decodePrefix]
      cases first : decodeChar? bytes with
      | none => exact ⟨rfl, first⟩
      | some char =>
          obtain ⟨rest, rfl⟩ := decodeChar?_eq_some.mp first
          have positive := char.utf8Size_pos
          rw [length_append, String.length_utf8EncodeChar] at enough
          obtain ⟨parts, stopped⟩ := ih rest (by omega)
          simp only [drop_utf8Size, encode_cons, append_assoc]
          rw [parts]
          exact ⟨rfl, stopped⟩

theorem validPrefix_spec (bytes : List UInt8) : encode (validPrefix bytes).1 ++ (validPrefix bytes).2 = bytes ∧
      decodeChar? (validPrefix bytes).2 = none := decodePrefix_spec bytes.length bytes (Nat.le_refl _)

/-- A text before bytes that start with no character is read back. -/
theorem encode_unique {chars' : List Char} {rest rest' : List UInt8}
    (stuck : decodeChar? rest = none) (stuck' : decodeChar? rest' = none)
    (same : encode chars ++ rest = encode chars' ++ rest') : chars = chars' ∧ rest = rest' := by
  induction chars generalizing chars' with
  | nil =>
      cases chars' with
      | nil => exact ⟨rfl, same⟩
      | cons first later =>
          rw [encode_nil, nil_append, encode_cons, append_assoc] at same
          rw [same, decodeChar?_append] at stuck
          cases stuck
  | cons char chars ih =>
      rw [encode_cons, append_assoc] at same
      cases chars' with
      | nil =>
          rw [encode_nil, nil_append] at same
          rw [← same, decodeChar?_append] at stuck'
          cases stuck'
      | cons first later =>
          rw [encode_cons, append_assoc] at same
          have head := congrArg decodeChar? same
          rw [decodeChar?_append, decodeChar?_append] at head
          cases head
          obtain ⟨rfl, rfl⟩ := ih (append_cancel_left same)
          exact ⟨rfl, rfl⟩

theorem validPrefix_append (chars : List Char) (bytes : List UInt8) :
    validPrefix (encode chars ++ bytes) = (chars ++ (validPrefix bytes).1, (validPrefix bytes).2) := by
  obtain ⟨whole, stopped⟩ := validPrefix_spec (encode chars ++ bytes)
  obtain ⟨part, stopped'⟩ := validPrefix_spec bytes
  have same : encode (validPrefix (encode chars ++ bytes)).1 ++ (validPrefix (encode chars ++ bytes)).2 =
      encode (chars ++ (validPrefix bytes).1) ++ (validPrefix bytes).2 := by
    rw [whole, encode_append, append_assoc, part]
  obtain ⟨first, second⟩ := encode_unique stopped stopped' same
  exact Prod.ext first second

theorem decode_append (chars : List Char) (bytes : List UInt8) :
    decode (encode chars ++ bytes) = (decode bytes).map (chars ++ ·) := by
  rw [decode, decode, validPrefix_append]
  split <;> rfl

@[simp] theorem decode_nil : decode [] = some [] := rfl

@[simp] theorem decode_encode (chars : List Char) : decode (encode chars) = some chars := by
  have read := decode_append chars []
  rw [append_nil, decode_nil] at read
  simpa using read

theorem decode_eq_some : decode bytes = some chars ↔ encode chars = bytes := by
  constructor
  · intro read
    obtain ⟨parts, _⟩ := validPrefix_spec bytes
    rw [decode] at read
    split at read
    · rename_i complete
      rw [complete, append_nil, Option.some.inj read] at parts
      exact parts
    · cases read
  · rintro rfl
    exact decode_encode chars

theorem encode_injective : Function.Injective encode := by
  intro chars chars' same
  have read := decode_encode chars
  rw [same, decode_encode] at read
  exact (Option.some.inj read).symm

/-- The number of bytes of a text. -/
def size (chars : List Char) : Nat := (encode chars).length

@[simp] theorem size_nil : size [] = 0 := rfl

@[simp] theorem size_cons (char : Char) (chars : List Char) : size (char :: chars) = char.utf8Size + size chars := by
  rw [size, encode_cons, length_append, String.length_utf8EncodeChar, size]

theorem size_sublist {part : List Char} (sublist : part.Sublist chars) : size part ≤ size chars := by
  induction sublist with
  | slnil => exact Nat.le_refl _
  | cons char _ ih =>
      rw [size_cons]
      omega
  | cons_cons char _ ih =>
      rw [size_cons, size_cons]
      omega

/-- An ASCII byte is a character. -/
theorem utf8EncodeChar_ofUInt8 {byte : UInt8} (ascii : byte < 128) : utf8EncodeChar (Char.ofUInt8 byte) = [byte] := by
  have small : (Char.ofUInt8 byte).val ≤ 127 := by
    have below := UInt8.lt_iff_toNat_lt.mp ascii
    apply UInt32.le_iff_toNat_le.mpr
    change byte.toUInt32.toNat ≤ 127
    rw [UInt8.toNat_toUInt32]
    exact Nat.le_of_lt_succ below
  rw [String.utf8EncodeChar_eq_singleton (Char.utf8Size_eq_one_iff.mpr small)]
  change [byte.toUInt32.toUInt8] = [byte]
  rw [UInt8.toUInt8_toUInt32]

variable {byte : UInt8} {before after : List UInt8}

theorem isUTF8FirstByte_ascii (ascii : byte < 128) : byte.IsUTF8FirstByte := by
  have masked : ∀ value < 128, value &&& 128 = 0 := by decide
  left
  apply UInt8.toNat_inj.mp
  rw [UInt8.toNat_and]
  exact masked _ (UInt8.lt_iff_toNat_lt.mp ascii)

/-- An ASCII byte within a character is the whole character. -/
theorem utf8EncodeChar_split (ascii : byte < 128) (parts : utf8EncodeChar char = before ++ byte :: after) :
    before = [] ∧ after = [] := by
  have inside : before.length < (utf8EncodeChar char).length := by
    rw [parts, length_append, length_cons]
    omega
  have here : (utf8EncodeChar char)[before.length] = byte := by
    simp only [parts]
    rw [getElem_append_right (Nat.le_refl _)]
    simp
  have leading := isUTF8FirstByte_ascii ascii
  rw [← here, UInt8.isUTF8FirstByte_getElem_utf8EncodeChar, length_eq_zero_iff] at leading
  subst leading
  have first := decodeChar?_append (Char.ofUInt8 byte) after
  rw [utf8EncodeChar_ofUInt8 ascii, singleton_append, ← nil_append (byte :: after), ← parts,
    ← append_nil (utf8EncodeChar char), decodeChar?_append] at first
  rw [Option.some.inj first, utf8EncodeChar_ofUInt8 ascii, nil_append, cons_inj_right] at parts
  exact ⟨rfl, parts.symm⟩

/-- An ASCII byte splits a text. -/
theorem encode_split (ascii : byte < 128) (parts : encode chars = before ++ byte :: after) :
    ∃ front back, chars = front ++ Char.ofUInt8 byte :: back ∧ encode front = before ∧ encode back = after := by
  induction chars generalizing before with
  | nil => simp at parts
  | cons char chars ih =>
      rw [encode_cons, append_eq_append_iff] at parts
      rcases parts with ⟨middle, longer, rest⟩ | ⟨middle, shorter, rest⟩
      · obtain ⟨front, back, rfl, rfl, rfl⟩ := ih rest
        exact ⟨char :: front, back, rfl, longer.symm, rfl⟩
      · cases middle with
        | nil =>
            rw [nil_append] at rest
            rw [append_nil] at shorter
            obtain ⟨front, back, rfl, none, rfl⟩ := ih (show encode chars = [] ++ byte :: after from rest.symm)
            refine ⟨char :: front, back, rfl, ?_, rfl⟩
            rw [encode_cons, none, append_nil, shorter]
        | cons first middle =>
            rw [cons_append, List.cons.injEq] at rest
            obtain ⟨rfl, rest⟩ := rest
            obtain ⟨rfl, rfl⟩ := utf8EncodeChar_split ascii shorter
            have same : char = Char.ofUInt8 byte := by
              have read := decodeChar?_append char []
              rw [shorter, nil_append, append_nil, ← utf8EncodeChar_ofUInt8 ascii,
                ← append_nil (utf8EncodeChar _), decodeChar?_append] at read
              exact (Option.some.inj read).symm
            exact ⟨[], chars, by rw [same, nil_append], rfl, rest.symm⟩

/-- A failed decoding gives the number of bytes in front of the failure. -/
def fromUtf8 (bytes : List UInt8) : Except Nat (List Char) :=
  if (validPrefix bytes).2 = [] then .ok (validPrefix bytes).1 else .error (size (validPrefix bytes).1)

theorem validPrefix_stuck (stuck : decodeChar? bytes = none) : validPrefix bytes = ([], bytes) := by
  obtain ⟨parts, stopped⟩ := validPrefix_spec bytes
  rw [← nil_append bytes, ← encode_nil] at parts
  obtain ⟨first, second⟩ := encode_unique stopped stuck parts
  exact Prod.ext first second

theorem fromUtf8_append (chars : List Char) (stuck : decodeChar? bytes = none) :
    fromUtf8 (encode chars ++ bytes) = if bytes = [] then .ok chars else .error (size chars) := by
  rw [fromUtf8, validPrefix_append, validPrefix_stuck stuck, append_nil]

theorem fromUtf8_encode (chars : List Char) : fromUtf8 (encode chars) = .ok chars := by
  have read := fromUtf8_append chars (show decodeChar? [] = none by decide)
  rw [append_nil] at read
  exact read

def isContinuation (byte : UInt8) : Bool := 0x80 ≤ byte && byte ≤ 0xBF

/-- The second byte can follow the first one in a character of three or four bytes. -/
def secondFits (first second : UInt8) : Bool :=
  (first = 0xE0 && 0xA0 ≤ second && second ≤ 0xBF) ||
  (0xE1 ≤ first && first ≤ 0xEC && isContinuation second) ||
  (first = 0xED && 0x80 ≤ second && second ≤ 0x9F) ||
  (0xEE ≤ first && first ≤ 0xEF && isContinuation second) ||
  (first = 0xF0 && 0x90 ≤ second && second ≤ 0xBF) ||
  (0xF1 ≤ first && first ≤ 0xF3 && isContinuation second) ||
  (first = 0xF4 && 0x80 ≤ second && second ≤ 0x8F)

/-- The number of bytes that one replacement stands for, at the start of bytes that start with no character. -/
def brokenWidth : List UInt8 → Nat
  | first :: second :: rest =>
      if secondFits first second then
        if 0xF0 ≤ first ∧ rest.head?.any isContinuation = true then 3 else 2
      else 1
  | _ => 1

def lossyLoop : Nat → List UInt8 → List Char
  | 0, _ => []
  | _ + 1, [] => []
  | bound + 1, byte :: later =>
      match decodeChar? (byte :: later) with
      | some char => char :: lossyLoop bound ((byte :: later).drop char.utf8Size)
      | none => '\uFFFD' :: lossyLoop bound ((byte :: later).drop (brokenWidth (byte :: later)))

/-- The decoding with a replacement character for each longest part that is no character. -/
def lossy (bytes : List UInt8) : List Char := lossyLoop bytes.length bytes

example : lossy [0x61, 0xF0, 0x9F, 0x98, 0xE2, 0x82, 0xFF, 0x62] = ['a', '\uFFFD', '\uFFFD', '\uFFFD', 'b'] := by
  decide

theorem brokenWidth_pos (bytes : List UInt8) : 0 < brokenWidth bytes := by
  unfold brokenWidth
  split
  · split
    · split
      · exact Nat.succ_pos 2
      · exact Nat.succ_pos 1
    · exact Nat.succ_pos 0
  · exact Nat.succ_pos 0

theorem lossyLoop_bound {bound bound' : Nat} (enough : bytes.length ≤ bound) (enough' : bytes.length ≤ bound') :
    lossyLoop bound bytes = lossyLoop bound' bytes := by
  induction bound generalizing bound' bytes with
  | zero =>
      rw [length_eq_zero_iff.mp (Nat.le_zero.mp enough)]
      cases bound' <;> rfl
  | succ bound ih =>
      cases bytes with
      | nil => cases bound' <;> rfl
      | cons byte later =>
          cases bound' with
          | zero => cases enough'
          | succ bound' =>
              have shorter {width : Nat} (positive : 0 < width) :
                  lossyLoop bound ((byte :: later).drop width) = lossyLoop bound' ((byte :: later).drop width) := by
                rw [length_cons] at enough enough'
                apply ih
                · rw [length_drop, length_cons]
                  omega
                · rw [length_drop, length_cons]
                  omega
              rw [lossyLoop, lossyLoop]
              cases decodeChar? (byte :: later) with
              | none => exact congrArg _ (shorter (brokenWidth_pos _))
              | some char => exact congrArg _ (shorter char.utf8Size_pos)

@[simp] theorem lossy_char (char : Char) (rest : List UInt8) :
    lossy (utf8EncodeChar char ++ rest) = char :: lossy rest := by
  have some := decodeChar?_append char rest
  have dropped := drop_utf8Size char rest
  have width := String.length_utf8EncodeChar char
  have positive := char.utf8Size_pos
  cases whole : utf8EncodeChar char ++ rest with
  | nil => exact absurd (append_eq_nil_iff.mp whole).1 (utf8EncodeChar_ne_nil char)
  | cons byte later =>
      have lengths := congrArg List.length whole
      rw [length_append, length_cons] at lengths
      rw [whole] at some dropped
      rw [lossy, length_cons, lossyLoop, some]
      change char :: lossyLoop later.length ((byte :: later).drop char.utf8Size) = _
      rw [dropped, lossy, @lossyLoop_bound rest later.length rest.length (by omega) (Nat.le_refl _)]

/-- A text in front is decoded as it is. -/
theorem lossy_append (chars : List Char) (bytes : List UInt8) : lossy (encode chars ++ bytes) = chars ++ lossy bytes := by
  induction chars with
  | nil => rfl
  | cons char chars ih => rw [encode_cons, append_assoc, lossy_char, ih, cons_append]

/-- What follows a text in a text is a text. -/
theorem encode_behind {front : List Char} (same : encode chars = encode front ++ bytes) :
    ∃ back, chars = front ++ back ∧ encode back = bytes := by
  have read := decode_append front bytes
  rw [← same, decode_encode] at read
  obtain ⟨back, decoded, rfl⟩ := Option.map_eq_some_iff.mp read.symm
  exact ⟨back, rfl, decode_eq_some.mp decoded⟩

/-- The bytes are the start of a character and lack its end. -/
def BeginsChar (bytes : List UInt8) : Prop := ∃ char missing, missing ≠ [] ∧ utf8EncodeChar char = bytes ++ missing

theorem BeginsChar.length_le (begins : BeginsChar bytes) : bytes.length ≤ 3 := by
  obtain ⟨char, missing, some, parts⟩ := begins
  have total := String.length_utf8EncodeChar char
  have most := char.utf8Size_le_four
  have few := length_pos_iff.mpr some
  rw [parts, length_append] at total
  omega

/-- Bytes that start with no character start a text exactly when they begin a character. -/
theorem beginsChar_iff (stuck : decodeChar? bytes = none) : BeginsChar bytes ↔ ∃ text, bytes <+: encode text := by
  constructor
  · rintro ⟨char, missing, _, parts⟩
    exact ⟨[char], missing, by rw [← parts, encode_cons, encode_nil, append_nil]⟩
  · rintro ⟨text, more, parts⟩
    cases text with
    | nil =>
        rw [(append_eq_nil_iff.mp parts).1]
        exact ⟨'a', _, utf8EncodeChar_ne_nil 'a', rfl⟩
    | cons char text =>
        rw [encode_cons, append_eq_append_iff] at parts
        rcases parts with ⟨missing, whole, _⟩ | ⟨extra, longer, _⟩
        · refine ⟨char, missing, ?_, whole⟩
          rintro rfl
          rw [append_nil] at whole
          have found := decodeChar?_append char []
          rw [append_nil, whole, stuck] at found
          cases found
        · rw [longer, decodeChar?_append] at stuck
          cases stuck

end Pictor.Utf8
