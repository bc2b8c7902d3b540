import Pictor.Library.Slice
import Pictor.Library.Utf8

namespace Pictor.Reading
open LittleEndian List

variable {Error Value Next : Type}

/-- A reader stops with an error, or aborts. -/
inductive Stop (Error : Type) where
  | failed (error : Error)
  | aborted
  deriving DecidableEq

/-- The state holds the bytes that are not read. -/
abbrev Reader (Error : Type) := StateT (List UInt8) (Except (Stop Error))

/-- The error is told how many bytes were left. -/
def readExact (short : Nat → Error) (size : Nat) : Reader Error (List UInt8) := fun bytes =>
  if size ≤ bytes.length then .ok (bytes.take size, bytes.drop size) else .error (.failed (short bytes.length))

def require (step : Except Error Value) : Reader Error Value := fun bytes =>
  match step with
  | .ok value => .ok (value, bytes)
  | .error error => .error (.failed error)

/-- Room for elements is reserved before they are read. A request for more elements than the rest could encode aborts. -/
def reserving (count width : Nat) (read : Reader Error Value) : Reader Error Value := fun bytes =>
  if count * width ≤ bytes.length then read bytes else .error .aborted

/-- Several values one after another. -/
def many (read : Reader Error Value) : Nat → Reader Error (List Value)
  | 0 => pure []
  | count + 1 => do
      let value ← read
      let values ← many read count
      return value :: values

/-- The parts that a reader accepts for a value, and the beginnings after which it needs room of a size. -/
structure Describes (read : Reader Error Value) (parts : Value → List UInt8 → Prop)
    (needs : List UInt8 → Nat → Prop) : Prop where
  reads : ∀ bytes value rest, read bytes = .ok (value, rest) ↔ ∃ part, parts value part ∧ bytes = part ++ rest
  aborts : ∀ bytes, read bytes = .error .aborted ↔
    ∃ before size rest, needs before size ∧ bytes = before ++ rest ∧ rest.length < size

variable {read : Reader Error Value} {next : Value → Reader Error Next} {parts : Value → List UInt8 → Prop}
  {needs : List UInt8 → Nat → Prop}

theorem Describes.congr (describes : Describes read parts needs) {parts' : Value → List UInt8 → Prop}
    {needs' : List UInt8 → Nat → Prop} (sameParts : ∀ value part, parts' value part ↔ parts value part)
    (sameNeeds : ∀ before size, needs' before size ↔ needs before size) : Describes read parts' needs' where
  reads bytes value rest := by simp only [describes.reads, sameParts]
  aborts bytes := by simp only [describes.aborts, sameNeeds]

theorem describes_readExact (short : Nat → Error) (size : Nat) :
    Describes (readExact short size) (fun value part => value.length = size ∧ part = value) fun _ _ => False where
  reads bytes value rest := by
    rw [readExact]
    constructor
    · intro read
      split at read
      case isTrue enough =>
        cases read
        exact ⟨_, ⟨length_take_of_le enough, rfl⟩, (take_append_drop size bytes).symm⟩
      case isFalse => cases read
    · intro ⟨part, ⟨full, same⟩, whole⟩
      rw [whole, same, ← full, if_pos (by simp), take_left, drop_left]
  aborts bytes := by
    rw [readExact]
    constructor
    · intro aborted
      split at aborted
      · cases aborted
      · cases aborted
    · intro ⟨_, _, _, impossible, _⟩
      exact impossible.elim

theorem describes_require (step : Except Error Value) :
    Describes (require step) (fun value part => step = .ok value ∧ part = []) fun _ _ => False where
  reads bytes value rest := by
    cases step with
    | error error => simp [require]
    | ok result => simp [require, eq_comm]
  aborts bytes := by
    cases step with
    | error error => simp [require]
    | ok result => simp [require]

theorem describes_pure (value : Value) :
    Describes (pure value : Reader Error Value) (fun other part => other = value ∧ part = []) fun _ _ => False where
  reads bytes other rest := by
    change Except.ok (value, bytes) = _ ↔ _
    simp [eq_comm]
  aborts bytes := by
    change Except.ok (value, bytes) = _ ↔ _
    simp

/-- The second reader goes on behind the part of the first one. -/
theorem Describes.bind (describes : Describes read parts needs) {partsNext : Value → Next → List UInt8 → Prop}
    {needsNext : Value → List UInt8 → Nat → Prop}
    (later : ∀ value part, parts value part → Describes (next value) (partsNext value) (needsNext value)) :
    Describes (read >>= next)
      (fun last whole => ∃ value part part', parts value part ∧ partsNext value last part' ∧ whole = part ++ part')
      fun before size => needs before size ∨
        ∃ value part before', parts value part ∧ needsNext value before' size ∧ before = part ++ before' where
  reads bytes last rest := by
    change (read bytes >>= fun result => next result.1 result.2) = _ ↔ _
    constructor
    · intro ran
      cases first : read bytes with
      | error stop =>
          rw [first] at ran
          cases ran
      | ok result =>
          obtain ⟨value, middle⟩ := result
          rw [first] at ran
          obtain ⟨part, accepted, rfl⟩ := (describes.reads bytes value middle).mp first
          obtain ⟨part', accepted', rfl⟩ := ((later value part accepted).reads middle last rest).mp ran
          exact ⟨part ++ part', ⟨value, part, part', accepted, accepted', rfl⟩, by rw [append_assoc]⟩
    · intro ⟨whole, ⟨value, part, part', accepted, accepted', split⟩, same⟩
      have first := (describes.reads bytes value (part' ++ rest)).mpr
        ⟨part, accepted, by rw [same, split, append_assoc]⟩
      rw [first]
      exact ((later value part accepted).reads (part' ++ rest) last rest).mpr ⟨part', accepted', rfl⟩
  aborts bytes := by
    change (read bytes >>= fun result => next result.1 result.2) = _ ↔ _
    constructor
    · intro ran
      cases first : read bytes with
      | error stop =>
          rw [first] at ran
          cases ran
          obtain ⟨before, size, rest, needed, short⟩ := (describes.aborts bytes).mp first
          exact ⟨before, size, rest, .inl needed, short⟩
      | ok result =>
          obtain ⟨value, middle⟩ := result
          rw [first] at ran
          obtain ⟨part, accepted, rfl⟩ := (describes.reads bytes value middle).mp first
          obtain ⟨before, size, rest, needed, rfl, short⟩ := ((later value part accepted).aborts middle).mp ran
          exact ⟨part ++ before, size, rest, .inr ⟨value, part, before, accepted, needed, rfl⟩,
            (append_assoc _ _ _).symm, short⟩
    · intro ⟨before, size, rest, needed, same, short⟩
      rcases needed with here | ⟨value, part, before', accepted, there, split⟩
      · rw [(describes.aborts bytes).mpr ⟨before, size, rest, here, same, short⟩]
        rfl
      · have first := (describes.reads bytes value (before' ++ rest)).mpr
          ⟨part, accepted, by rw [same, split, append_assoc]⟩
        rw [first]
        exact ((later value part accepted).aborts (before' ++ rest)).mpr ⟨before', size, rest, there, rfl, short⟩

/-- A reservation needs the bytes that its elements take at least. -/
theorem Describes.reserving (describes : Describes read parts needs) {count width : Nat}
    (enough : ∀ value part, parts value part → count * width ≤ part.length) :
    Describes (reserving count width read) parts
      fun before size => before = [] ∧ size = count * width ∨ needs before size where
  reads bytes value rest := by
    rw [Reading.reserving, ← describes.reads]
    constructor
    · intro ran
      split at ran
      case isTrue => exact ran
      case isFalse => cases ran
    · intro ran
      obtain ⟨part, accepted, same⟩ := (describes.reads bytes value rest).mp ran
      have room := enough value part accepted
      rw [if_pos (by rw [same, length_append]; omega), ran]
  aborts bytes := by
    rw [Reading.reserving]
    constructor
    · intro ran
      split at ran
      case isTrue =>
        obtain ⟨before, size, rest, needed, short⟩ := (describes.aborts bytes).mp ran
        exact ⟨before, size, rest, .inr needed, short⟩
      case isFalse short => exact ⟨[], _, bytes, .inl ⟨rfl, rfl⟩, rfl, Nat.not_le.mp short⟩
    · intro ⟨before, size, rest, needed, same, short⟩
      split
      case isTrue room =>
        rcases needed with ⟨empty, all⟩ | needed
        · rw [same, empty, nil_append, ← all] at room
          omega
        · exact (describes.aborts bytes).mpr ⟨before, size, rest, needed, same, short⟩
      case isFalse => rfl

/-- Values that each have one encoding are read one after another. -/
theorem describes_many {valid : Value → Prop} {encode : Value → List UInt8}
    (describes : Describes read (fun value part => valid value ∧ part = encode value) needs) (count : Nat) :
    Describes (many read count)
      (fun values part => (values.length = count ∧ ∀ value ∈ values, valid value) ∧ part = values.flatMap encode)
      fun before size => ∃ (values : List Value) (before' : List UInt8), values.length < count ∧ (∀ value ∈ values, valid value) ∧
        needs before' size ∧ before = values.flatMap encode ++ before' := by
  induction count with
  | zero =>
      apply (describes_pure []).congr
      · intro values part
        constructor
        · intro ⟨⟨empty, _⟩, same⟩
          rw [length_eq_zero_iff] at empty
          rw [empty] at same
          exact ⟨empty, same⟩
        · intro ⟨empty, same⟩
          rw [empty, same]
          exact ⟨⟨rfl, fun _ impossible => (nomatch impossible)⟩, rfl⟩
      · intro before size
        simp
  | succ count ih =>
      rw [many]
      apply (describes.bind fun value _ _ => ih.bind fun values _ _ => describes_pure (value :: values)).congr
      · intro values part
        constructor
        · intro ⟨⟨full, good⟩, same⟩
          cases values with
          | nil => cases full
          | cons value values =>
              rw [forall_mem_cons] at good
              refine ⟨value, encode value, values.flatMap encode, ⟨good.1, rfl⟩, ?_, same⟩
              exact ⟨values, _, [], ⟨⟨Nat.succ.inj full, good.2⟩, rfl⟩, ⟨rfl, rfl⟩, (append_nil _).symm⟩
        · intro chain
          obtain ⟨value, _, _, ⟨good, rfl⟩, ⟨rest, _, _, ⟨⟨full, good'⟩, rfl⟩, ⟨rfl, rfl⟩, rfl⟩, same⟩ := chain
          rw [append_nil] at same
          exact ⟨⟨congrArg (· + 1) full, forall_mem_cons.mpr ⟨good, good'⟩⟩, same⟩
      · intro before size
        constructor
        · intro ⟨values, before', fewer, good, needed, same⟩
          cases values with
          | nil => exact .inl (by rwa [same])
          | cons value values =>
              rw [forall_mem_cons] at good
              refine .inr ⟨value, encode value, values.flatMap encode ++ before', ⟨good.1, rfl⟩, .inl ?_, ?_⟩
              · exact ⟨values, before', Nat.lt_of_succ_lt_succ fewer, good.2, needed, rfl⟩
              · rw [same, flatMap_cons, append_assoc]
        · intro needed
          rcases needed with here | ⟨value, _, before', ⟨good, rfl⟩, there, same⟩
          · exact ⟨[], before, Nat.succ_pos count, fun _ impossible => (nomatch impossible), here, rfl⟩
          · rcases there with ⟨values, before'', fewer, good', needed, rfl⟩ | ⟨_, _, _, _, impossible, _⟩
            · refine ⟨value :: values, before'', Nat.succ_lt_succ fewer, forall_mem_cons.mpr ⟨good, good'⟩,
                needed, ?_⟩
              rw [same, flatMap_cons, append_assoc]
            · exact impossible.elim

section Fields

variable (short : Nat → Nat → Error)

def u32 : Reader Error UInt32 := do
  let buf ← readExact (short 4) 4
  return UInt32.ofNat (ofLeBytes buf)

def u64 : Reader Error UInt64 := do
  let buf ← readExact (short 8) 8
  return UInt64.ofNat (ofLeBytes buf)

/-- A length that is stored with 32 bits. -/
def len32 : Reader Error Nat := do
  let len ← u32 short
  return len.toNat

/-- A length that is stored with 64 bits. -/
def len64 : Reader Error Nat := do
  let len ← u64 short
  return len.toNat

/-- The bytes of a vector, which is allocated before they are read. -/
def vec (size : Nat) : Reader Error (List UInt8) := reserving size 1 (readExact (short size) size)

/-- A text behind its length. -/
def text (broken : List UInt8 → Error) : Reader Error (List Char) := do
  let len ← len32 short
  let buf ← vec short len
  require (match Utf8.decode buf with | some text => .ok text | none => .error (broken buf))

theorem describes_u32 : Describes (u32 short) (fun value part => True ∧ part = leBytes 4 value.toNat) fun _ _ => False := by
  apply ((describes_readExact (short 4) 4).bind fun buf _ _ => describes_pure (UInt32.ofNat (ofLeBytes buf))).congr
  · intro value part
    constructor
    · intro ⟨_, same⟩
      refine ⟨leBytes 4 value.toNat, _, [], ⟨length_leBytes _ _, rfl⟩, ⟨?_, rfl⟩, by rw [append_nil, same]⟩
      rw [ofLeBytes_leBytes value.toNat_lt, UInt32.ofNat_toNat]
    · intro chain
      obtain ⟨_, buf, _, ⟨full, rfl⟩, ⟨rfl, rfl⟩, same⟩ := chain
      have small := ofLeBytes_lt buf
      rw [full] at small
      refine ⟨True.intro, ?_⟩
      rw [UInt32.toNat_ofNat_of_lt' small, ← full, leBytes_ofLeBytes, same, append_nil]
  · intro before size
    simp

theorem describes_u64 : Describes (u64 short) (fun value part => True ∧ part = leBytes 8 value.toNat) fun _ _ => False := by
  apply ((describes_readExact (short 8) 8).bind fun buf _ _ => describes_pure (UInt64.ofNat (ofLeBytes buf))).congr
  · intro value part
    constructor
    · intro ⟨_, same⟩
      refine ⟨leBytes 8 value.toNat, _, [], ⟨length_leBytes _ _, rfl⟩, ⟨?_, rfl⟩, by rw [append_nil, same]⟩
      rw [ofLeBytes_leBytes value.toNat_lt, UInt64.ofNat_toNat]
    · intro chain
      obtain ⟨_, buf, _, ⟨full, rfl⟩, ⟨rfl, rfl⟩, same⟩ := chain
      have small := ofLeBytes_lt buf
      rw [full] at small
      refine ⟨True.intro, ?_⟩
      rw [UInt64.toNat_ofNat_of_lt' small, ← full, leBytes_ofLeBytes, same, append_nil]
  · intro before size
    simp

theorem describes_len32 : Describes (len32 short) (fun len part => len < 2 ^ 32 ∧ part = leBytes 4 len) fun _ _ => False := by
  apply ((describes_u32 short).bind fun len _ _ => describes_pure len.toNat).congr
  · intro len part
    constructor
    · intro ⟨small, same⟩
      have back : (UInt32.ofNat len).toNat = len := UInt32.toNat_ofNat_of_lt' small
      exact ⟨UInt32.ofNat len, part, [], ⟨True.intro, by rw [back, same]⟩, ⟨back.symm, rfl⟩, (append_nil _).symm⟩
    · intro chain
      obtain ⟨value, _, _, ⟨_, rfl⟩, ⟨rfl, rfl⟩, same⟩ := chain
      exact ⟨value.toNat_lt, by rw [same, append_nil]⟩
  · intro before size
    simp

theorem describes_len64 : Describes (len64 short) (fun len part => len < 2 ^ 64 ∧ part = leBytes 8 len) fun _ _ => False := by
  apply ((describes_u64 short).bind fun len _ _ => describes_pure len.toNat).congr
  · intro len part
    constructor
    · intro ⟨small, same⟩
      have back : (UInt64.ofNat len).toNat = len := UInt64.toNat_ofNat_of_lt' small
      exact ⟨UInt64.ofNat len, part, [], ⟨True.intro, by rw [back, same]⟩, ⟨back.symm, rfl⟩, (append_nil _).symm⟩
    · intro chain
      obtain ⟨value, _, _, ⟨_, rfl⟩, ⟨rfl, rfl⟩, same⟩ := chain
      exact ⟨value.toNat_lt, by rw [same, append_nil]⟩
  · intro before size
    simp

theorem describes_vec (size : Nat) : Describes (vec short size) (fun value part => value.length = size ∧ part = value)
      fun before needed => before = [] ∧ needed = size := by
  apply ((describes_readExact (short size) size).reserving ?_).congr
  · exact fun _ _ => Iff.rfl
  · intro before needed
    rw [Nat.mul_one, or_false]
  · intro value part ⟨full, same⟩
    rw [same, full, Nat.mul_one]

/-- A reader that goes on with as many elements as a length says needs room for them behind the length. -/
theorem Describes.counted {count : Reader Error Nat} {bound : Nat} {encodeLen : Nat → List UInt8}
    (describes : Describes count (fun len part => len < bound ∧ part = encodeLen len) fun _ _ => False)
    {read : Nat → Reader Error Value} {width : Nat} {size : Value → Nat} {encode : Value → List UInt8}
    (later : ∀ len, Describes (read len) (fun value part => size value = len ∧ part = encode value)
      fun before needed => before = [] ∧ needed = len * width) :
    Describes (count >>= read) (fun value part => size value < bound ∧ part = encodeLen (size value) ++ encode value)
      fun before needed => ∃ len < bound, before = encodeLen len ∧ needed = len * width := by
  apply (describes.bind fun len _ _ => later len).congr
  · intro value part
    constructor
    · intro ⟨small, same⟩
      exact ⟨size value, _, _, ⟨small, rfl⟩, ⟨rfl, rfl⟩, same⟩
    · intro chain
      obtain ⟨len, _, _, ⟨small, rfl⟩, ⟨rfl, rfl⟩, same⟩ := chain
      exact ⟨small, same⟩
  · intro before needed
    rw [false_or]
    constructor
    · intro ⟨len, small, same, all⟩
      exact ⟨len, _, [], ⟨small, rfl⟩, ⟨rfl, all⟩, by rw [same, append_nil]⟩
    · intro chain
      obtain ⟨len, _, _, ⟨small, rfl⟩, ⟨rfl, all⟩, same⟩ := chain
      exact ⟨len, small, by rw [same, append_nil], all⟩

/-- The bytes of a text behind its length. -/
def textBytes (text : List Char) : List UInt8 := leBytes 4 (Utf8.size text) ++ Utf8.encode text

theorem describes_text (broken : List UInt8 → Error) :
    Describes (text short broken) (fun text part => Utf8.size text < 2 ^ 32 ∧ part = textBytes text)
      fun before needed => ∃ len < 2 ^ 32, before = leBytes 4 len ∧ needed = len * 1 := by
  apply (describes_len32 short).counted
  intro len
  apply ((describes_vec short len).bind fun buf _ _ => describes_require _).congr
  · intro text part
    constructor
    · intro ⟨full, same⟩
      exact ⟨Utf8.encode text, part, [], ⟨full, same⟩, ⟨by rw [Utf8.decode_encode], rfl⟩, (append_nil _).symm⟩
    · intro chain
      obtain ⟨buf, _, _, ⟨full, rfl⟩, ⟨valid, rfl⟩, same⟩ := chain
      split at valid
      case h_1 text' decoded =>
        cases valid
        rw [Utf8.decode_eq_some] at decoded
        rw [append_nil] at same
        exact ⟨by rw [Utf8.size, decoded, full], by rw [same, decoded]⟩
      case h_2 => cases valid
  · intro before needed
    simp

/-- Elements that take a fixed number of bytes each are read behind their number. -/
theorem describes_elements {encode : Value → List UInt8} {width : Nat}
    (describes : Describes read (fun value part => True ∧ part = encode value) fun _ _ => False)
    (wide : ∀ value, (encode value).length = width) (len : Nat) :
    Describes (Reading.reserving len width (many read len))
      (fun values part => values.length = len ∧ part = values.flatMap encode)
      fun before needed => before = [] ∧ needed = len * width := by
  apply ((describes_many describes len).reserving ?_).congr
  · intro values part
    simp
  · intro before needed
    simp
  · intro values part ⟨⟨full, _⟩, same⟩
    have each : values.map (fun value => (encode value).length) = values.map fun _ => width := by
      apply map_congr_left
      exact fun value _ => wide value
    rw [same, length_flatMap, each, map_const', sum_replicate_nat, full]

end Fields

end Pictor.Reading
