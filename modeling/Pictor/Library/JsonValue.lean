import Mathlib.Data.List.Basic
import Mathlib.Data.List.Induction
import Mathlib.Data.Nat.Digits.Defs

namespace Pictor

/-- A dialect fixes the characters and tokens that JSON leaves to other rules. -/
structure JsonDialect where
  space : Char → Prop
  number : List Char → Prop
  body : List Char → Prop
  key : List Char → Prop
  /-- A key without a value. -/
  bareKey : List Char → Prop
  /-- A comma in front of the closing bracket. -/
  trailingComma : Prop

/-- An entry of an object is keyed, and an entry of an array is not. A series is fresh in front of its
first entry. -/
inductive JsonPart where
  | value
  | entry (keyed : Bool)
  | series (keyed fresh : Bool)

/-- Spaces lead from a text to a rest. -/
inductive Spaces (space : Char → Prop) : List Char → List Char → Prop
  | done (text : List Char) : Spaces space text text
  | skip {c : Char} {text rest : List Char} :
      space c → Spaces space text rest → Spaces space (c :: text) rest

def jsonLiterals : List (List Char) := [['t', 'r', 'u', 'e'], ['f', 'a', 'l', 's', 'e'], ['n', 'u', 'l', 'l']]

/-- One part of a JSON text leads from a text to a rest. -/
inductive JsonForm (dialect : JsonDialect) : JsonPart → List Char → List Char → Prop
  | literal {word : List Char} (rest : List Char) :
      word ∈ jsonLiterals → JsonForm dialect .value (word ++ rest) rest
  | number {token : List Char} (rest : List Char) :
      dialect.number token → JsonForm dialect .value (token ++ rest) rest
  | string {body : List Char} (rest : List Char) :
      dialect.body body → JsonForm dialect .value ('"' :: (body ++ '"' :: rest)) rest
  | array {text rest : List Char} :
      JsonForm dialect (.series false true) text (']' :: rest) → JsonForm dialect .value ('[' :: text) rest
  | object {text rest : List Char} :
      JsonForm dialect (.series true true) text ('}' :: rest) → JsonForm dialect .value ('{' :: text) rest
  | element {text before after rest : List Char} :
      Spaces dialect.space text before → JsonForm dialect .value before after →
      Spaces dialect.space after rest → JsonForm dialect (.entry false) text rest
  | pair {text key after value rest : List Char} :
      Spaces dialect.space text ('"' :: (key ++ '"' :: after)) → dialect.key key →
      Spaces dialect.space after (':' :: value) → JsonForm dialect (.entry false) value rest →
      JsonForm dialect (.entry true) text rest
  | bare {text key after rest : List Char} :
      Spaces dialect.space text ('"' :: (key ++ '"' :: after)) → dialect.bareKey key →
      Spaces dialect.space after rest → JsonForm dialect (.entry true) text rest
  | none {keyed fresh : Bool} {text rest : List Char} :
      fresh = true ∨ dialect.trailingComma → Spaces dialect.space text rest →
      JsonForm dialect (.series keyed fresh) text rest
  | last {keyed : Bool} (fresh : Bool) {text rest : List Char} :
      JsonForm dialect (.entry keyed) text rest → JsonForm dialect (.series keyed fresh) text rest
  | more {keyed : Bool} (fresh : Bool) {text middle rest : List Char} :
      JsonForm dialect (.entry keyed) text (',' :: middle) →
      JsonForm dialect (.series keyed false) middle rest →
      JsonForm dialect (.series keyed fresh) text rest

/-- A JSON text is one value between spaces. -/
def JsonText (dialect : JsonDialect) (text : List Char) : Prop := JsonForm dialect (.entry false) text []

/-- A dialect is part of another one when each of its rules is. -/
structure JsonDialect.Within (dialect dialect' : JsonDialect) : Prop where
  space : ∀ c, dialect.space c → dialect'.space c
  number : ∀ token, dialect.number token → dialect'.number token
  body : ∀ body, dialect.body body → dialect'.body body
  key : ∀ key, dialect.key key → dialect'.key key
  bareKey : ∀ key, dialect.bareKey key → dialect'.bareKey key
  trailingComma : dialect.trailingComma → dialect'.trailingComma

variable {dialect dialect' : JsonDialect} {part : JsonPart} {text middle rest : List Char}
  {space space' : Char → Prop}

theorem Spaces.mono (weaker : ∀ c, space c → space' c) (spaces : Spaces space text rest) :
    Spaces space' text rest := by
  induction spaces with
  | done text => exact .done text
  | skip blank _ ih => exact .skip (weaker _ blank) ih

/-- A text of a dialect is a text of every wider dialect. -/
theorem JsonForm.mono (within : dialect.Within dialect') (form : JsonForm dialect part text rest) :
    JsonForm dialect' part text rest := by
  have spaces {text rest : List Char} (known : Spaces dialect.space text rest) :
      Spaces dialect'.space text rest := known.mono within.space
  induction form with
  | literal rest member => exact .literal rest member
  | number rest token => exact .number rest (within.number _ token)
  | string rest body => exact .string rest (within.body _ body)
  | array _ ih => exact .array ih
  | object _ ih => exact .object ih
  | element before _ after ih => exact .element (spaces before) ih (spaces after)
  | pair before key colon _ ih => exact .pair (spaces before) (within.key _ key) (spaces colon) ih
  | bare before key after => exact .bare (spaces before) (within.bareKey _ key) (spaces after)
  | none first blank => exact .none (first.imp_right within.trailingComma) (spaces blank)
  | last fresh _ ih => exact .last fresh ih
  | more fresh _ _ ih ih' => exact .more fresh ih ih'

def isDigit (c : Char) : Prop := '0' ≤ c ∧ c ≤ '9'

instance (c : Char) : Decidable (isDigit c) := inferInstanceAs (Decidable (_ ∧ _))

/-- One or more digits. -/
def Digits (text : List Char) : Prop := text ≠ [] ∧ ∀ c ∈ text, isDigit c

theorem Digits.singleton {c : Char} (digit : isDigit c) : Digits [c] :=
  ⟨List.cons_ne_nil c [], List.forall_mem_singleton.mpr digit⟩

/-- The integer part of a number has no leading zero. -/
def IntegerPart (text : List Char) : Prop := text = ['0'] ∨ (Digits text ∧ text.head? ≠ some '0')

def FractionPart (text : List Char) : Prop := text = [] ∨ ∃ digits, text = '.' :: digits ∧ Digits digits

def ExponentPart (text : List Char) : Prop :=
  text = [] ∨ ∃ mark sign digits, text = mark :: (sign ++ digits) ∧ (mark = 'e' ∨ mark = 'E') ∧
    (sign = [] ∨ sign = ['+'] ∨ sign = ['-']) ∧ Digits digits

def JsonNumber (token : List Char) : Prop :=
  ∃ sign integer fraction exponent, token = sign ++ (integer ++ (fraction ++ exponent)) ∧
    (sign = [] ∨ sign = ['-']) ∧ IntegerPart integer ∧ FractionPart fraction ∧ ExponentPart exponent

def isHexDigit (c : Char) : Prop := isDigit c ∨ ('a' ≤ c ∧ c ≤ 'f') ∨ ('A' ≤ c ∧ c ≤ 'F')

/-- A string holds plain characters and escape sequences. -/
inductive JsonBody : List Char → Prop
  | nil : JsonBody []
  | plain {c : Char} {body : List Char} :
      ' ' ≤ c → c ≠ '"' → c ≠ '\\' → JsonBody body → JsonBody (c :: body)
  | escape {c : Char} {body : List Char} :
      c ∈ ['"', '\\', '/', 'b', 'f', 'n', 'r', 't'] → JsonBody body → JsonBody ('\\' :: c :: body)
  | unicode {a b c d : Char} {body : List Char} :
      isHexDigit a → isHexDigit b → isHexDigit c → isHexDigit d → JsonBody body →
      JsonBody ('\\' :: 'u' :: a :: b :: c :: d :: body)

def isJsonSpace (c : Char) : Prop := c = ' ' ∨ c = '\t' ∨ c = '\n' ∨ c = '\r'

/-- The grammar of RFC 8259. -/
def JsonDialect.rfc8259 : JsonDialect where
  space := isJsonSpace
  number := JsonNumber
  body := JsonBody
  key := JsonBody
  bareKey _ := False
  trailingComma := False

end Pictor

namespace Pictor
open List

inductive Json (Number : Type) where
  | null
  | bool (value : Bool)
  | number (value : Number)
  | string (value : List Char)
  | array (items : List (Json Number))
  | object (members : List (List Char × Json Number))

/-- Sorted members with one place for each key. -/
abbrev JsonMap (Number : Type) := List (List Char × Json Number)

namespace JsonMap

variable {Number : Type}

/-- A later member takes the place of an earlier one. -/
def insert (key : List Char) (value : Json Number) : JsonMap Number → JsonMap Number
  | [] => [(key, value)]
  | (first, value') :: rest =>
      if key = first then (key, value) :: rest
      else if key < first then (key, value) :: (first, value') :: rest
      else (first, value') :: insert key value rest

def ofMembers (members : List (List Char × Json Number)) : JsonMap Number :=
  members.foldl (fun map member => insert member.1 member.2 map) []

variable {key other : List Char} {value : Json Number} {map : JsonMap Number}

theorem lookup_insert_self : (insert key value map).lookup key = some value := by
  induction map with
  | nil => rw [insert, lookup_cons_self]
  | cons first rest ih =>
      rw [insert]
      by_cases same : key = first.1
      · rw [if_pos same, lookup_cons_self]
      · rw [if_neg same]
        by_cases before : key < first.1
        · rw [if_pos before, lookup_cons_self]
        · rw [if_neg before, lookup_cons, beq_false_of_ne same]
          exact ih

theorem lookup_insert_other (apart : other ≠ key) : (insert key value map).lookup other = map.lookup other := by
  induction map with
  | nil => rw [insert, lookup_cons, beq_false_of_ne apart]
  | cons first rest ih =>
      rw [insert]
      by_cases same : key = first.1
      · rw [if_pos same, lookup_cons, beq_false_of_ne apart, lookup_cons, ← same,
          beq_false_of_ne apart]
      · rw [if_neg same]
        by_cases before : key < first.1
        · rw [if_pos before, lookup_cons, beq_false_of_ne apart]
        · rw [if_neg before, lookup_cons, ih, ← lookup_cons]

theorem ofMembers_concat (members : List (List Char × Json Number)) (member : List Char × Json Number) :
    ofMembers (members ++ [member]) = insert member.1 member.2 (ofMembers members) := by
  rw [ofMembers, foldl_concat, ofMembers]

/-- A found member is one of the members. -/
theorem mem_of_lookup {members : List (List Char × Json Number)}
    (found : (ofMembers members).lookup key = some value) : (key, value) ∈ members := by
  induction members using List.reverseRecOn with
  | nil => cases found
  | append_singleton members member ih =>
      rw [ofMembers_concat] at found
      by_cases same : key = member.1
      · subst same
        rw [lookup_insert_self] at found
        rw [← Option.some.inj found]
        exact mem_append_right _ mem_cons_self
      · rw [lookup_insert_other same] at found
        exact mem_append_left _ (ih found)

end JsonMap

def hexValue (c : Char) : Option Nat :=
  if '0' ≤ c ∧ c ≤ '9' then some (c.toNat - 48)
  else if 'a' ≤ c ∧ c ≤ 'f' then some (c.toNat - 87)
  else if 'A' ≤ c ∧ c ≤ 'F' then some (c.toNat - 55)
  else none

/-- The number that four hexadecimal digits write. -/
def codeUnit (a b c d : Char) : Option Nat := do
  let a ← hexValue a
  let b ← hexValue b
  let c ← hexValue c
  let d ← hexValue d
  return ((a * 16 + b) * 16 + c) * 16 + d

def jsonEscapes : List (Char × Char) :=
  [('"', '"'), ('\\', '\\'), ('/', '/'), ('b', '\x08'), ('f', '\x0c'), ('n', '\n'), ('r', '\r'), ('t', '\t')]

/-- The body of a string literal denotes a text. -/
inductive JsonString : List Char → List Char → Prop
  | nil : JsonString [] []
  | plain {c : Char} {body text : List Char} :
      ' ' ≤ c → c ≠ '"' → c ≠ '\\' → JsonString body text → JsonString (c :: body) (c :: text)
  | escape {mark c : Char} {body text : List Char} :
      (mark, c) ∈ jsonEscapes → JsonString body text → JsonString ('\\' :: mark :: body) (c :: text)
  | unicode {a b c d : Char} {code : Nat} {body text : List Char} :
      codeUnit a b c d = some code → ¬(0xd800 ≤ code ∧ code < 0xe000) → JsonString body text →
      JsonString ('\\' :: 'u' :: a :: b :: c :: d :: body) (Char.ofNat code :: text)
  | pair {a b c d a' b' c' d' : Char} {high low : Nat} {body text : List Char} :
      codeUnit a b c d = some high → 0xd800 ≤ high ∧ high < 0xdc00 →
      codeUnit a' b' c' d' = some low → 0xdc00 ≤ low ∧ low < 0xe000 → JsonString body text →
      JsonString ('\\' :: 'u' :: a :: b :: c :: d :: '\\' :: 'u' :: a' :: b' :: c' :: d' :: body)
        (Char.ofNat (0x10000 + (high - 0xd800) * 0x400 + (low - 0xdc00)) :: text)

def jsonConstants {Number : Type} : List (List Char × Json Number) :=
  [(['t', 'r', 'u', 'e'], .bool true), (['f', 'a', 'l', 's', 'e'], .bool false), (['n', 'u', 'l', 'l'], .null)]

/-- One part of a JSON text of bounded depth denotes members, where a value is a member without a key. -/
inductive JsonReads {Number : Type} (number : List Char → Number → Prop) :
    Nat → JsonPart → List Char → List Char → List (List Char × Json Number) → Prop
  | constant {word : List Char} {value : Json Number} (depth : Nat) (rest : List Char) :
      (word, value) ∈ jsonConstants → JsonReads number depth .value (word ++ rest) rest [([], value)]
  | number {token : List Char} {value : Number} (depth : Nat) (rest : List Char) :
      number token value → JsonReads number depth .value (token ++ rest) rest [([], .number value)]
  | string {body text : List Char} (depth : Nat) (rest : List Char) :
      JsonString body text →
      JsonReads number depth .value ('"' :: (body ++ '"' :: rest)) rest [([], .string text)]
  | array {depth : Nat} {text rest : List Char} {items : List (List Char × Json Number)} :
      JsonReads number depth (.series false true) text (']' :: rest) items →
      JsonReads number (depth + 1) .value ('[' :: text) rest [([], .array (items.map Prod.snd))]
  | object {depth : Nat} {text rest : List Char} {members : List (List Char × Json Number)} :
      JsonReads number depth (.series true true) text ('}' :: rest) members →
      JsonReads number (depth + 1) .value ('{' :: text) rest [([], .object (JsonMap.ofMembers members))]
  | element {depth : Nat} {text before after rest : List Char} {members : List (List Char × Json Number)} :
      Spaces isJsonSpace text before → JsonReads number depth .value before after members →
      Spaces isJsonSpace after rest → JsonReads number depth (.entry false) text rest members
  | pair {depth : Nat} {text body after middle rest key key' : List Char} {value : Json Number} :
      Spaces isJsonSpace text ('"' :: (body ++ '"' :: after)) → JsonString body key →
      Spaces isJsonSpace after (':' :: middle) →
      JsonReads number depth (.entry false) middle rest [(key', value)] →
      JsonReads number depth (.entry true) text rest [(key, value)]
  | none {depth : Nat} {keyed : Bool} {text rest : List Char} :
      Spaces isJsonSpace text rest → JsonReads number depth (.series keyed true) text rest []
  | last {depth : Nat} {keyed : Bool} (fresh : Bool) {text rest : List Char}
      {members : List (List Char × Json Number)} :
      JsonReads number depth (.entry keyed) text rest members →
      JsonReads number depth (.series keyed fresh) text rest members
  | more {depth : Nat} {keyed : Bool} (fresh : Bool) {text middle rest : List Char}
      {first later : List (List Char × Json Number)} :
      JsonReads number depth (.entry keyed) text (',' :: middle) first →
      JsonReads number depth (.series keyed false) middle rest later →
      JsonReads number depth (.series keyed fresh) text rest (first ++ later)

end Pictor

namespace Pictor
open List

def hexChar (value : Nat) : Char := if value < 10 then Char.ofNat (48 + value) else Char.ofNat (87 + value)

def shortEscapes : List (Char × Char) :=
  [('"', '"'), ('\\', '\\'), ('\x08', 'b'), ('\x0c', 'f'), ('\n', 'n'), ('\r', 'r'), ('\t', 't')]

/-- A control character without a short escape is written with its code. -/
def escapeChar (c : Char) : List Char :=
  match shortEscapes.lookup c with
  | some mark => ['\\', mark]
  | none =>
      if c < ' ' then ['\\', 'u', '0', '0', hexChar (c.toNat / 16), hexChar (c.toNat % 16)] else [c]

def escapeText (text : List Char) : List Char := text.flatMap escapeChar

theorem codeUnit_hexChar : ∀ code < 32, codeUnit '0' '0' (hexChar (code / 16)) (hexChar (code % 16)) = some code := by
  decide

theorem jsonEscapes_of_short {c mark : Char} (found : shortEscapes.lookup c = some mark) :
    (mark, c) ∈ jsonEscapes := by
  have members : ∀ pair ∈ shortEscapes, (pair.2, pair.1) ∈ jsonEscapes := by decide
  obtain ⟨first, second, parts⟩ := lookup_eq_some_iff.mp found
  exact members (c, mark) (by rw [parts.1]; exact mem_append_right _ mem_cons_self)

/-- The written literal denotes the text. -/
theorem escapeText_denotes (text : List Char) : JsonString (escapeText text) text := by
  induction text with
  | nil => exact .nil
  | cons c text ih =>
      rw [escapeText, flatMap_cons, escapeChar]
      cases found : shortEscapes.lookup c with
      | some mark => exact .escape (jsonEscapes_of_short found) ih
      | none =>
          by_cases control : c < ' '
          · have small : c.toNat < 32 := control
            have written := @JsonString.unicode '0' '0' (hexChar (c.toNat / 16)) (hexChar (c.toNat % 16)) c.toNat
              _ _ (codeUnit_hexChar _ small) (by omega) ih
            rw [Char.ofNat_toNat] at written
            simp only [if_pos control, cons_append, nil_append]
            exact written
          · have quote : c ≠ '"' := by
              rintro rfl
              exact absurd found (by decide)
            have slash : c ≠ '\\' := by
              rintro rfl
              exact absurd found (by decide)
            simp only [if_neg control, cons_append, nil_append]
            exact .plain (Char.not_lt.mp control) quote slash ih

end Pictor
