import Mathlib.Data.Char
import Mathlib.Data.List.TakeWhile
import Pictor.Library.Utf8

namespace Pictor

/-- The characters with the Unicode property White_Space. -/
def isWhitespace (c : Char) : Bool :=
  let code := c.toNat
  (9 ≤ code && code ≤ 13) || code = 32 || code = 0x85 || code = 0xA0 || code = 0x1680 ||
    (0x2000 ≤ code && code ≤ 0x200A) || code = 0x2028 || code = 0x2029 || code = 0x202F ||
    code = 0x205F || code = 0x3000

def isAsciiPunctuation (c : Char) : Bool :=
  let code := c.toNat
  (0x21 ≤ code && code ≤ 0x2F) || (0x3A ≤ code && code ≤ 0x40) || (0x5B ≤ code && code ≤ 0x60) ||
    (0x7B ≤ code && code ≤ 0x7E)

/-- The value of a hexadecimal digit of either case. -/
def hexValue? (c : Char) : Option Nat :=
  let code := c.toNat
  if 0x30 ≤ code ∧ code ≤ 0x39 then some (code - 0x30)
  else if 0x41 ≤ code ∧ code ≤ 0x46 then some (code - 0x37)
  else if 0x61 ≤ code ∧ code ≤ 0x66 then some (code - 0x57)
  else none

/-- The digit of a value below 16, in upper case. -/
def hexDigit (value : Nat) : Char := Char.ofNat (if value < 10 then 0x30 + value else 0x37 + value)

/-- A plus sign before more characters is no part of the number. -/
def stripPlus : List Char → List Char
  | '+' :: first :: rest => first :: rest
  | text => text

/-- A hexadecimal byte, with an optional plus sign. -/
def parseHexByte (text : List Char) : Option UInt8 :=
  let digits := stripPlus text
  if digits = [] then none
  else (digits.foldlM (fun value c => (hexValue? c).map fun digit => 16 * value + digit) 0).bind
    fun value => if value < 256 then some (UInt8.ofNat value) else none

end Pictor

namespace Pictor.LineText
open List

/-- A line ends with a line feed. A carriage return before it belongs to the end. -/
def stripReturn (line : List UInt8) : List UInt8 :=
  if line.getLast? = some 13 then line.dropLast else line

/-- The lines from the current one on. The last one may lack its end. -/
def lineLoop : List UInt8 → List UInt8 → List (List UInt8)
  | current, [] => if current = [] then [] else [current]
  | current, byte :: rest =>
      if byte = 10 then stripReturn current :: lineLoop [] rest else lineLoop (current ++ [byte]) rest

/-- The lines of a byte string. A line that is no UTF-8 gives nothing. -/
def lines (bytes : List UInt8) : List (Option (List Char)) := (lineLoop [] bytes).map Utf8.decode

def trimStart (text : List Char) : List Char := text.dropWhile isWhitespace

def trim (text : List Char) : List Char := (trimStart (trimStart text).reverse).reverse

/-- The fields between spaces, at most as many as the bound. The last one keeps its spaces. -/
def splitn : Nat → List Char → List (List Char)
  | 0, _ => []
  | 1, text => [text]
  | bound + 2, text =>
      if ' ' ∈ text then
        text.takeWhile (· ≠ ' ') :: splitn (bound + 1) ((text.dropWhile (· ≠ ' ')).drop 1)
      else [text]

/-- A decimal number up to a largest value, with an optional plus sign. -/
def parseUnsigned (largest : Nat) (text : List Char) : Option Nat :=
  let digits := stripPlus text
  if digits ≠ [] ∧ digits.all Char.isDigit then
    let value := Nat.ofDigitChars 10 digits 0
    if value ≤ largest then some value else none
  else none

/-- A text without a line end. -/
def OneLine (text : List Char) : Prop := '\n' ∉ text ∧ text.getLast? ≠ some '\r'

theorem lineLoop_append (current line rest : List UInt8) (inside : 10 ∉ line) :
    lineLoop current (line ++ 10 :: rest) = stripReturn (current ++ line) :: lineLoop [] rest := by
  induction line generalizing current with
  | nil =>
      rw [nil_append, lineLoop, if_pos rfl, append_nil]
  | cons byte line ih =>
      rw [mem_cons, not_or] at inside
      rw [cons_append, lineLoop, if_neg (Ne.symm inside.1), ih _ inside.2, append_assoc]
      rfl

/-- A byte of the encoding that is an ASCII character is a character of the text. -/
theorem mem_of_mem_encode {byte : UInt8} (ascii : byte < 128) {text : List Char}
    (member : byte ∈ Utf8.encode text) : Char.ofUInt8 byte ∈ text := by
  obtain ⟨before, after, parts⟩ := append_of_mem member
  obtain ⟨front, back, rfl, _, _⟩ := Utf8.encode_split ascii parts
  exact mem_append_right _ mem_cons_self

theorem stripReturn_encode {text : List Char} (oneLine : OneLine text) :
    stripReturn (Utf8.encode text) = Utf8.encode text := by
  rw [stripReturn, if_neg]
  intro last
  obtain ⟨front, parts⟩ := getLast?_eq_some_iff.mp last
  obtain ⟨chars, back, rfl, _, none⟩ := Utf8.encode_split (by decide) parts
  have empty : back = [] := Utf8.encode_injective none
  subst empty
  exact oneLine.2 (by rw [getLast?_concat]; rfl)

/-- Lines that are written with line feeds are read back. -/
theorem lines_encode (texts : List (List Char)) (oneLine : ∀ text ∈ texts, OneLine text) :
    lines (Utf8.encode (texts.flatMap fun text => text ++ ['\n'])) = texts.map some := by
  have newline : Utf8.encode ['\n'] = [10] := by decide
  rw [lines]
  induction texts with
  | nil => rfl
  | cons text texts ih =>
      have first := oneLine text mem_cons_self
      have inside : 10 ∉ Utf8.encode text := fun member =>
        first.1 (mem_of_mem_encode (by decide) member)
      rw [flatMap_cons, Utf8.encode_append, Utf8.encode_append, newline, append_assoc,
        singleton_append, lineLoop_append _ _ _ inside, nil_append, stripReturn_encode first,
        map_cons, Utf8.decode_encode, ih fun other member => oneLine other (mem_cons_of_mem _ member)]
      rfl

/-- A text between characters that are no spaces is its own trimmed text. -/
theorem trim_eq {text : List Char} (first : ∀ c, text.head? = some c → isWhitespace c = false)
    (last : ∀ c, text.getLast? = some c → isWhitespace c = false) : trim text = text := by
  have start {text : List Char} (first : ∀ c, text.head? = some c → isWhitespace c = false) :
      trimStart text = text := by
    cases text with
    | nil => rfl
    | cons c rest => rw [trimStart, dropWhile_cons, first c rfl]; rfl
  rw [trim, start first, start, reverse_reverse]
  intro c head
  rw [head?_reverse] at head
  exact last c head

variable {c : Char} {field : List Char} {fields : List (List Char)}

/-- A text with a character that is no space is not trimmed to nothing. -/
theorem trim_ne_nil {text : List Char} (member : c ∈ text) (solid : isWhitespace c = false) : trim text ≠ [] := by
  have kept {text : List Char} (member : c ∈ text) : c ∈ trimStart text := by
    rw [← @takeWhile_append_dropWhile _ isWhitespace text, mem_append] at member
    rcases member with space | kept
    · rw [mem_takeWhile_imp space] at solid
      cases solid
    · exact kept
  rw [trim]
  exact ne_nil_of_mem (mem_reverse.mpr (kept (mem_reverse.mpr (kept member))))

/-- Only white space is trimmed. -/
theorem trim_parts (text : List Char) : ∃ front back, text = front ++ (trim text ++ back) ∧
    (∀ c ∈ front, isWhitespace c = true) ∧ ∀ c ∈ back, isWhitespace c = true := by
  have start (text : List Char) : ∃ front, text = front ++ trimStart text ∧ ∀ c ∈ front, isWhitespace c = true :=
    ⟨text.takeWhile isWhitespace, takeWhile_append_dropWhile.symm, fun c member => mem_takeWhile_imp member⟩
  obtain ⟨front, parts, space⟩ := start text
  obtain ⟨back, parts', space'⟩ := start (trimStart text).reverse
  refine ⟨front, back.reverse, ?_, space, fun c member => space' c (mem_reverse.mp member)⟩
  rw [trim, ← reverse_append, ← parts', reverse_reverse]
  exact parts

/-- The first field ends at the first space. -/
theorem splitn_append (bound : Nat) (solid : ' ' ∉ field) (rest : List Char) :
    splitn (bound + 2) (field ++ ' ' :: rest) = field :: splitn (bound + 1) rest := by
  have each : ∀ c ∈ field, decide (c ≠ ' ') = true := by
    intro c member
    apply decide_eq_true
    rintro rfl
    exact solid member
  rw [splitn, if_pos (mem_append_right _ mem_cons_self), takeWhile_append_of_pos each,
    dropWhile_append_of_pos each]
  simp

theorem splitn_solid (bound : Nat) (solid : ' ' ∉ field) : splitn (bound + 1) field = [field] := by
  cases bound with
  | zero => rfl
  | succ bound => rw [splitn, if_neg solid]

/-- A number that is printed is read back. -/
theorem parseUnsigned_toDigits {largest value : Nat} (fits : value ≤ largest) :
    parseUnsigned largest (Nat.toDigits 10 value) = some value := by
  have digits : ∀ c ∈ Nat.toDigits 10 value, c.isDigit = true := fun c member =>
    Nat.isDigit_of_mem_toDigits (by decide) (by decide) member
  have unsigned : stripPlus (Nat.toDigits 10 value) = Nat.toDigits 10 value := by
    unfold stripPlus
    split
    · rename_i first rest parts
      have sign := digits '+' (by rw [parts]; exact mem_cons_self)
      exact absurd sign (by decide)
    · rfl
  simp only [parseUnsigned, unsigned]
  rw [if_pos ⟨Nat.toDigits_ne_nil, all_eq_true.mpr digits⟩, Nat.ofDigitChars_ten_toDigits, if_pos fits]

/-- A field without white space. -/
def Solid (field : List Char) : Prop := ∀ c ∈ field, isWhitespace c = false

instance (field : List Char) : Decidable (Solid field) :=
  List.decidableBAll (isWhitespace · = false) field

theorem Solid.not_mem (solid : Solid field) (space : isWhitespace c = true) : c ∉ field := by
  intro member
  rw [solid c member] at space
  cases space

def joinFields : List (List Char) → List Char
  | [] => []
  | [field] => field
  | field :: fields => field ++ ' ' :: joinFields fields

theorem splitn_joinFields (fields : List (List Char)) (solid : ∀ field ∈ fields, Solid field)
    (nonempty : fields ≠ []) (extra : Nat) : splitn (fields.length + extra) (joinFields fields) = fields := by
  induction fields with
  | nil => exact absurd rfl nonempty
  | cons field fields ih =>
      have noSpace := (solid field mem_cons_self).not_mem (show isWhitespace ' ' = true by decide)
      cases fields with
      | nil =>
          rw [joinFields, length_singleton, Nat.add_comm]
          exact splitn_solid extra noSpace
      | cons second fields =>
          have later := ih (fun other member => solid other (mem_cons_of_mem _ member))
            (cons_ne_nil _ _)
          have count : (field :: second :: fields).length + extra = fields.length + extra + 2 := by
            simp only [length_cons]
            omega
          have count' : (second :: fields).length + extra = fields.length + extra + 1 := by
            simp only [length_cons]
            omega
          rw [count'] at later
          rw [joinFields, count, splitn_append _ noSpace, later]
          exact cons_ne_nil _ _

/-- A character of joined fields is a space or belongs to a field. -/
theorem mem_joinFields (member : c ∈ joinFields fields) : c = ' ' ∨ ∃ field ∈ fields, c ∈ field := by
  induction fields with
  | nil => cases member
  | cons field fields ih =>
      cases fields with
      | nil => exact Or.inr ⟨field, mem_cons_self, member⟩
      | cons second fields =>
          rw [joinFields] at member
          · rcases mem_append.mp member with here | later
            · exact Or.inr ⟨field, mem_cons_self, here⟩
            · rcases mem_cons.mp later with space | further
              · exact Or.inl space
              · rcases ih further with space | ⟨other, listed, inside⟩
                · exact Or.inl space
                · exact Or.inr ⟨other, mem_cons_of_mem _ listed, inside⟩
          · exact cons_ne_nil _ _

theorem oneLine_joinFields (solid : ∀ field ∈ fields, Solid field) : OneLine (joinFields fields) := by
  have absent (c : Char) (space : isWhitespace c = true) (different : c ≠ ' ') : c ∉ joinFields fields := by
    intro member
    rcases mem_joinFields member with same | ⟨field, listed, inside⟩
    · exact different same
    · exact (solid field listed).not_mem space inside
  refine ⟨absent '\n' (by decide) (by decide), fun last => ?_⟩
  exact absent '\r' (by decide) (by decide) (mem_of_getLast? last)

/-- Joined fields with a field at each end have no white space to trim. -/
theorem trim_joinFields {first : List Char} {fields : List (List Char)} {last : List Char}
    (solid : Solid first) (solid' : Solid last) (nonempty : first ≠ []) (nonempty' : last ≠ []) :
    trim (joinFields (first :: (fields ++ [last]))) = joinFields (first :: (fields ++ [last])) := by
  have ends (fields : List (List Char)) : ∃ front, joinFields (fields ++ [last]) = front ++ last := by
    induction fields with
    | nil => exact ⟨[], rfl⟩
    | cons field fields ih =>
        obtain ⟨front, parts⟩ := ih
        rw [cons_append, joinFields, parts]
        · exact ⟨field ++ ' ' :: front, by rw [append_assoc, cons_append]⟩
        · simp
  apply trim_eq
  · intro c head
    obtain ⟨c', rest, rfl⟩ := exists_cons_of_ne_nil nonempty
    rw [joinFields] at head
    · cases head
      exact solid c mem_cons_self
    · simp
  · intro c final
    obtain ⟨front, parts⟩ := ends (first :: fields)
    rw [← cons_append, parts, getLast?_append_of_ne_nil _ nonempty'] at final
    exact solid' c (mem_of_getLast? final)

/-- White space at the end is trimmed. -/
theorem trim_concat {text : List Char} (nonempty : text ≠ [])
    (first : ∀ c, text.head? = some c → isWhitespace c = false)
    (last : ∀ c, text.getLast? = some c → isWhitespace c = false) : trim (text ++ [' ']) = text := by
  have same := trim_eq first last
  obtain ⟨c, rest, rfl⟩ := exists_cons_of_ne_nil nonempty
  have head := first c rfl
  have space : isWhitespace ' ' = true := by decide
  have start : trimStart ((c :: rest) ++ [' ']) = (c :: rest) ++ [' '] := by
    rw [cons_append, trimStart, dropWhile_cons, head]
    rfl
  have start' : trimStart (c :: rest) = c :: rest := by
    rw [trimStart, dropWhile_cons, head]
    rfl
  rw [trim, start'] at same
  rw [trim, start, reverse_append, reverse_singleton, singleton_append, trimStart,
    dropWhile_cons, space, if_pos rfl]
  exact same

theorem solid_toDigits (value : Nat) : Solid (Nat.toDigits 10 value) := by
  intro c member
  have digit := Nat.isDigit_of_mem_toDigits (by decide) (by decide) member
  rw [Char.isDigit, Bool.and_eq_true, decide_eq_true_eq, decide_eq_true_eq] at digit
  have lower : 48 ≤ c.toNat := UInt32.le_iff_toNat_le.mp digit.1
  have upper : c.toNat ≤ 57 := UInt32.le_iff_toNat_le.mp digit.2
  simp only [isWhitespace, Bool.or_eq_false_iff, Bool.and_eq_false_iff, decide_eq_false_iff_not]
  omega

/-- The complete lines of an event stream, and the last one without an end. A line ends with a line feed, a carriage
return, or both in turn. -/
def streamLines : List Char → List Char → List (List Char) × List Char
  | line, [] => ([], line)
  | line, '\r' :: '\n' :: rest =>
      let later := streamLines [] rest
      (line :: later.1, later.2)
  | line, c :: rest =>
      if c = '\n' ∨ c = '\r' then
        let later := streamLines [] rest
        (line :: later.1, later.2)
      else streamLines (line ++ [c]) rest

/-- A text without a line end in an event stream. -/
def Unbroken (text : List Char) : Prop := ∀ c ∈ text, c ≠ '\n' ∧ c ≠ '\r'

theorem streamLines_append (line text rest : List Char) (ends : text.getLast? ≠ some '\r') :
    streamLines line (text ++ '\n' :: rest) =
      ((streamLines line text).1 ++ (streamLines line text).2 :: (streamLines [] rest).1, (streamLines [] rest).2) := by
  fun_induction streamLines line text with
  | case1 line => simp [streamLines]
  | case2 line text later ih =>
      rw [cons_append, cons_append, streamLines, ih]
      · rfl
      · intro last
        exact ends (by rw [getLast?_cons_cons, getLast?_cons, last]; rfl)
  | case3 line c text other stop later ih =>
      have ends' : text.getLast? ≠ some '\r' := fun last => ends (by rw [getLast?_cons, last]; rfl)
      have behind : ∀ tail, c = '\r' → text ++ '\n' :: rest = '\n' :: tail → False := by
        intro tail same same'
        cases text with
        | nil => exact ends (by rw [same]; rfl)
        | cons c' text => exact other text same (by rw [(List.cons.inj same').1])
      rw [cons_append, streamLines, if_pos stop, ih ends']
      · rfl
      · exact behind
  | case4 line c text other stop ih =>
      have ends' : text.getLast? ≠ some '\r' := fun last => ends (by rw [getLast?_cons, last]; rfl)
      rw [cons_append, streamLines, if_neg stop, ih ends']
      intro tail same
      exact absurd (Or.inr same) stop

theorem streamLines_unbroken (line : List Char) {text : List Char} (unbroken : Unbroken text) :
    streamLines line text = ([], line ++ text) := by
  fun_induction streamLines line text with
  | case1 line => rw [append_nil]
  | case2 line text later ih => exact absurd rfl (unbroken '\r' mem_cons_self).2
  | case3 line c text other stop later ih =>
      have here := unbroken c mem_cons_self
      exact absurd stop (not_or.mpr here)
  | case4 line c text other stop ih =>
      rw [ih fun c member => unbroken c (mem_cons_of_mem _ member), append_assoc, singleton_append]

theorem unbroken_of_streamLines (line : List Char) {text : List Char} (none : (streamLines line text).1 = []) :
    Unbroken text := by
  fun_induction streamLines line text with
  | case1 line => exact fun c member => absurd member not_mem_nil
  | case2 line text later ih => cases none
  | case3 line c text other stop later ih => cases none
  | case4 line c text other stop ih => exact forall_mem_cons.mpr ⟨not_or.mp stop, ih none⟩

section Trims

variable {text front back : List Char}

/-- A text of white space. -/
def White (text : List Char) : Prop := ∀ c ∈ text, isWhitespace c = true

theorem White.append (first : White front) (second : White back) : White (front ++ back) :=
  fun c member => (mem_append.mp member).elim (first c) (second c)

theorem trimStart_eq_nil : trimStart text = [] ↔ White text := dropWhile_eq_nil_iff

theorem trimStart_spaces (spaces : White front) (text : List Char) : trimStart (front ++ text) = trimStart text := by
  rw [trimStart, dropWhile_append, dropWhile_eq_nil_iff.mpr spaces]
  rfl

/-- White space around a text does not change its trimmed text. -/
theorem trim_around (spaces : White front) (text : List Char) (spaces' : White back) :
    trim (front ++ (text ++ back)) = trim text := by
  rw [trim, trimStart_spaces spaces, trim]
  have start : trimStart (text ++ back) =
      if (trimStart text).isEmpty then trimStart back else trimStart text ++ back := dropWhile_append
  rw [start]
  cases rest : trimStart text with
  | nil =>
      rw [isEmpty_nil, if_pos rfl, trimStart_eq_nil.mpr spaces']
  | cons c rest =>
      rw [isEmpty_cons, if_neg Bool.false_ne_true, reverse_append,
        trimStart_spaces fun c member => spaces' c (mem_reverse.mp member)]

theorem trim_behind (text : List Char) (spaces : White back) : trim (text ++ back) = trim text :=
  trim_around (show White [] from nofun) text spaces

theorem trim_eq_nil : trim text = [] ↔ White text := by
  constructor
  · intro none c member
    by_contra solid
    exact trim_ne_nil member (Bool.eq_false_iff.mpr solid) none
  · intro spaces
    have around := trim_around spaces [] (show White [] from nofun)
    rwa [append_nil, append_nil] at around

/-- The characters of a text that are no white space. -/
def solids (text : List Char) : List Char := text.filter fun c => !isWhitespace c

theorem solids_append (first second : List Char) : solids (first ++ second) = solids first ++ solids second :=
  filter_append ..

theorem solids_spaces (spaces : White text) : solids text = [] := by
  refine filter_eq_nil_iff.mpr fun c member => ?_
  rw [spaces c member]
  exact Bool.false_ne_true

theorem solids_trim (text : List Char) : solids (trim text) = solids text := by
  obtain ⟨front, back, parts, spaces, spaces'⟩ := trim_parts text
  have whole := congrArg solids parts
  rw [solids_append, solids_append, solids_spaces spaces, solids_spaces spaces', append_nil, nil_append] at whole
  exact whole.symm

/-- White space between joined texts adds no character that counts. -/
theorem solids_intercalate {separator : List Char} (white : White separator) (parts : List (List Char)) :
    solids (separator.intercalate parts) = parts.flatMap solids := by
  induction parts with
  | nil => rfl
  | cons part parts ih =>
      cases parts with
      | nil => rw [intercalate_singleton, flatMap_singleton]
      | cons second parts =>
          rw [intercalate_cons_of_ne_nil (cons_ne_nil _ _), solids_append, solids_append,
            solids_spaces white, append_nil, ih]
          rfl

end Trims

end Pictor.LineText
