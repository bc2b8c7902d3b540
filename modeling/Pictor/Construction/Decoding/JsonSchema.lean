import Mathlib
import Pictor.Library.DecimalText
import Pictor.Library.JsonValue
import Pictor.Library.LineText

namespace Pictor

inductive SchemaError where
  | invalidJson (message : List Char)
  | unsupportedFeature (feature : List Char)
  | missingType
  | unknownType (name : List Char)
  | validationError (message : List Char)
  | schemaViolation (pos : Nat) (message : List Char)
  deriving DecidableEq, Repr

def SchemaError.display : SchemaError → List Char
  | .invalidJson message => "invalid schema JSON: ".toList ++ message
  | .unsupportedFeature feature => "unsupported schema feature: ".toList ++ feature
  | .missingType => "missing 'type' field in schema".toList
  | .unknownType name => "unknown type: '".toList ++ name ++ ['\'']
  | .validationError message => "validation error: ".toList ++ message
  | .schemaViolation pos message =>
      "schema violation at position ".toList ++ Nat.toDigits 10 pos ++ ": ".toList ++ message

/-- A parsed schema. The properties are a table, in which the first entry of a name counts. -/
inductive SchemaType where
  | object (properties : List (List Char × SchemaType)) (required : List (List Char))
  | array (items : Option SchemaType) (minItems maxItems : Option Nat)
  | string (enumValues : Option (List (List Char))) (minLength maxLength : Option Nat)
  | number (minimum maximum : Option Decimal)
  | integer (minimum maximum : Option Int64)
  | boolean
  | null
  | anyOf (schemas : List SchemaType)

/-- Numbers are exact. -/
abbrev JsonValue := Json ℚ

namespace JsonReader

open LineText

def invalid {Result : Type} (message : String) : Except SchemaError Result := .error (.invalidJson message.toList)

/-- The character of a short escape. -/
def escapeOf : Char → Option Char
  | '"' => some '"'
  | '\\' => some '\\'
  | '/' => some '/'
  | 'n' => some '\n'
  | 'r' => some '\r'
  | 't' => some '\t'
  | 'b' => some '\x08'
  | 'f' => some '\x0c'
  | _ => none

/-- The number of hexadecimal digits, with an optional plus sign. -/
def fromStrRadix16 (hex : List Char) : Option Nat :=
  (stripPlus hex).foldlM (fun value c => (hexValue? c).map fun digit => 16 * value + digit) 0

/-- The code point in upper case, with four digits at least. -/
def displayCodepoint (cp : Nat) : List Char := ((Nat.toDigits 16 cp).map Char.toUpper).leftpad 4 '0'

/-- The character of a Unicode escape. -/
def unicodeEscape (hex : List Char) : Except SchemaError Char :=
  match fromStrRadix16 hex with
  | none => .error (.invalidJson ("invalid unicode escape: \\u".toList ++ hex))
  | some cp =>
      if cp.isValidChar then .ok (Char.ofNat cp)
      else .error (.invalidJson ("invalid codepoint: U+".toList ++ displayCodepoint cp))

/-- The loop over the characters behind the opening quote. -/
def stringLoop : List Char → List Char → Except SchemaError (List Char × List Char)
  | [], _ => invalid "unterminated string"
  | ['\\'], _ => invalid "unterminated escape"
  | '\\' :: 'u' :: a :: b :: c :: d :: rest, result =>
      match unicodeEscape [a, b, c, d] with
      | .error error => .error error
      | .ok ch => stringLoop rest (result ++ [ch])
  | '\\' :: 'u' :: _, _ => invalid "unexpected end in escape"
  | '\\' :: mark :: rest, result =>
      match escapeOf mark with
      | some ch => stringLoop rest (result ++ [ch])
      | none => .error (.invalidJson ("unknown escape: \\".toList ++ [mark]))
  | '"' :: rest, result => .ok (result, rest)
  | ch :: rest, result => stringLoop rest (result ++ [ch])

/-- A string with its opening quote. -/
def parseJsonString (input : List Char) : Except SchemaError (List Char × List Char) := stringLoop input.tail []

/-- The minus sign of a number, if there is one. -/
def signPart : List Char → Bool × List Char
  | '-' :: rest => (true, rest)
  | rest => (false, rest)

/-- The digits behind a point, if there is one. -/
def fractionPart : List Char → List Char × List Char
  | '.' :: rest => (rest.takeWhile Char.isDigit, rest.dropWhile Char.isDigit)
  | rest => ([], rest)

/-- The sign of an exponent may be a plus sign. -/
def exponentSign : List Char → Bool × List Char
  | '+' :: rest => (false, rest)
  | rest => signPart rest

/-- The exponent with its sign and its digits, if there is a mark. -/
def exponentPart : List Char → Option (Bool × List Char) × List Char
  | [] => (none, [])
  | mark :: rest =>
      if mark = 'e' ∨ mark = 'E' then
        let (negative, rest) := exponentSign rest
        (some (negative, rest.takeWhile Char.isDigit), rest.dropWhile Char.isDigit)
      else (none, mark :: rest)

/-- The exact value of the parts of a number. A mark needs digits. -/
def numberValue (negative : Bool) (whole fraction : List Char) (exponent : Option (Bool × List Char)) : Option ℚ :=
  let mantissa : ℚ := Nat.ofDigitChars 10 (whole ++ fraction) 0
  let signed := if negative then -mantissa else mantissa
  if whole ++ fraction = [] then none
  else
    match exponent with
    | none => some (signed / 10 ^ fraction.length)
    | some (_, []) => none
    | some (false, digits) => some (signed / 10 ^ fraction.length * 10 ^ Nat.ofDigitChars 10 digits 0)
    | some (true, digits) => some (signed / 10 ^ fraction.length / 10 ^ Nat.ofDigitChars 10 digits 0)

def parseJsonNumber (input : List Char) : Except SchemaError (JsonValue × List Char) :=
  let (negative, unsigned) := signPart input
  let whole := unsigned.takeWhile Char.isDigit
  let (fraction, behind) := fractionPart (unsigned.dropWhile Char.isDigit)
  let (exponent, rest) := exponentPart behind
  let token := input.take (input.length - rest.length)
  if token = [] ∨ token = ['-'] then invalid "expected number"
  else
    match numberValue negative whole fraction exponent with
    | none => .error (.invalidJson ("invalid number: ".toList ++ token))
    | some value => .ok (.number value, rest)

def parseJsonBool (input : List Char) : Except SchemaError (JsonValue × List Char) :=
  match input with
  | 't' :: 'r' :: 'u' :: 'e' :: rest => .ok (.bool true, rest)
  | 'f' :: 'a' :: 'l' :: 's' :: 'e' :: rest => .ok (.bool false, rest)
  | _ => invalid "expected boolean"

def parseJsonNull (input : List Char) : Except SchemaError (JsonValue × List Char) :=
  match input with
  | 'n' :: 'u' :: 'l' :: 'l' :: rest => .ok (.null, rest)
  | _ => invalid "expected null"

/-- The result of a reader with a bounded recursion: no result means that the bound is used up. -/
abbrev JsonParse := ExceptT SchemaError Option

def outOfFuel {Result : Type} : JsonParse Result := ExceptT.mk none

def lift {Result : Type} (step : Except SchemaError Result) : JsonParse Result := ExceptT.mk (some step)

mutual

def parseJsonValue : Nat → List Char → JsonParse (JsonValue × List Char)
  | 0, _ => outOfFuel
  | fuel + 1, input =>
      match trimStart input with
      | [] => lift (invalid "unexpected end of input")
      | '"' :: rest => do
          let (text, rest) ← lift (parseJsonString ('"' :: rest))
          pure (.string text, rest)
      | '{' :: rest =>
          match trimStart rest with
          | '}' :: rest => pure (.object [], rest)
          | rest => do
              let (pairs, rest) ← objectLoop fuel [] rest
              pure (.object pairs, rest)
      | '[' :: rest =>
          match trimStart rest with
          | ']' :: rest => pure (.array [], rest)
          | rest => do
              let (items, rest) ← arrayLoop fuel [] rest
              pure (.array items, rest)
      | first :: rest =>
          if first = 't' ∨ first = 'f' then lift (parseJsonBool (first :: rest))
          else if first = 'n' then lift (parseJsonNull (first :: rest))
          else if first = '-' ∨ first.isDigit then lift (parseJsonNumber (first :: rest))
          else lift (.error (.invalidJson ("unexpected character '".toList ++ [first, '\''])))

/-- The loop over the pairs of an object. -/
def objectLoop : Nat → List (List Char × JsonValue) → List Char → JsonParse (List (List Char × JsonValue) × List Char)
  | 0, _, _ => outOfFuel
  | fuel + 1, pairs, rest =>
      match rest with
      | '"' :: _ => do
          let (key, afterKey) ← lift (parseJsonString rest)
          match trimStart afterKey with
          | ':' :: afterColon => do
              let (value, afterValue) ← parseJsonValue fuel (trimStart afterColon)
              match trimStart afterValue with
              | '}' :: rest => pure (pairs ++ [(key, value)], rest)
              | ',' :: rest => objectLoop fuel (pairs ++ [(key, value)]) (trimStart rest)
              | _ => lift (invalid "expected ',' or '\x7d' in object")
          | _ => lift (invalid "expected ':' after key")
      | _ => lift (invalid "expected string key")

/-- The loop over the items of an array. -/
def arrayLoop : Nat → List JsonValue → List Char → JsonParse (List JsonValue × List Char)
  | 0, _, _ => outOfFuel
  | fuel + 1, items, rest => do
      let (value, afterValue) ← parseJsonValue fuel rest
      match trimStart afterValue with
      | ']' :: rest => pure (items ++ [value], rest)
      | ',' :: rest => arrayLoop fuel (items ++ [value]) (trimStart rest)
      | _ => lift (invalid "expected ',' or ']' in array")

end

/-- Each nested call takes a character. -/
def readerFuel (text : List Char) : Nat := 2 * text.length + 1

end JsonReader

namespace SchemaType

open JsonReader LineText

/-- A whole number as a machine integer. The cast saturates. -/
def toI64 (n : ℚ) : Int := max (-2 ^ 63) (min (2 ^ 63 - 1) n.floor)

/-- The bounds of a value, where there are any. -/
def within {Value Bound : Type} [LE Value] [DecidableLE Value] (read : Bound → Value) (low high : Option Bound)
    (value : Value) : Bool :=
  low.all (fun bound => read bound ≤ value) && high.all fun bound => value ≤ read bound

mutual

def validateValueAgainstSchema : SchemaType → JsonValue → Bool
  | .object properties required, .object pairs =>
      required.all (fun key => pairs.any fun pair => pair.1 = key) &&
        pairs.all fun pair => validateMember properties pair.1 pair.2
  | .array none minItems maxItems, .array arr => within id minItems maxItems arr.length
  | .array (some items) minItems maxItems, .array arr =>
      within id minItems maxItems arr.length && arr.all fun elem => validateValueAgainstSchema items elem
  | .string enumValues minLength maxLength, .string s =>
      enumValues.all (fun enums => s ∈ enums) && within id minLength maxLength s.length
  | .number minimum maximum, .number n => within Decimal.toRat minimum maximum n
  | .integer minimum maximum, .number n => n.isInt && within Int64.toInt minimum maximum (toI64 n)
  | .boolean, .bool _ => true
  | .null, .null => true
  | .anyOf schemas, value => validateAny schemas value
  | _, _ => false

/-- A key without a property allows every value. -/
def validateMember : List (List Char × SchemaType) → List Char → JsonValue → Bool
  | [], _, _ => true
  | (name, schema) :: properties, key, value =>
      if key = name then validateValueAgainstSchema schema value else validateMember properties key value

def validateAny : List SchemaType → JsonValue → Bool
  | [], _ => false
  | schema :: schemas, value => validateValueAgainstSchema schema value || validateAny schemas value

end

/-- The validation of a parsed value never fails. -/
def validateAgainstSchema (text : List Char) (schema : SchemaType) : JsonParse Bool :=
  match (parseJsonValue (readerFuel text) text).run with
  | none => outOfFuel
  | some (.error error) => throw (.validationError ("JSON parse error: ".toList ++ error.display))
  | some (.ok (value, rest)) =>
      if trimStart rest = [] then pure (validateValueAgainstSchema schema value)
      else throw (.validationError "trailing characters after JSON value".toList)

/-- The entries of a table in the order of their names. -/
def sortedEntries {Entry : Type} (entries : List (List Char × Entry)) : List (List Char × Entry) :=
  ((entries.map Prod.fst).dedup.insertionSort (· ≤ ·)).filterMap fun key =>
    (entries.lookup key).map fun entry => (key, entry)

def joinComma : List (List Char) → List Char
  | [] => []
  | [part] => part
  | part :: parts => part ++ ',' :: joinComma parts

/-- A name is written without escapes. -/
def quoted (text : List Char) : List Char := '"' :: (text ++ ['"'])

def stringExample (enumValues : Option (List (List Char))) (minLength : Option Nat) : List Char :=
  match enumValues with
  | some (first :: _) => first
  | _ =>
      let minLen := minLength.getD 0
      if 0 < minLen then List.replicate minLen 'x' else "example".toList

def numberExample (minimum : Option Decimal) : List Char :=
  let val := minimum.getD (.ofInt 0)
  if val.toRat = ⌊val.toRat⌋ then val.display ++ ['.', '0'] else val.display

mutual

def schemaExample : SchemaType → List Char
  | .object properties _ =>
      if properties.isEmpty then ['{', '}']
      else '{' :: (joinComma ((sortedEntries (memberExamples properties)).map fun member =>
        quoted member.1 ++ ':' :: member.2) ++ ['}'])
  | .array (some item) minItems _ =>
      '[' :: (joinComma (List.replicate (max (minItems.getD 1) 1) (schemaExample item)) ++ [']'])
  | .array none _ _ => ['[', ']']
  | .string enumValues minLength _ => quoted (stringExample enumValues minLength)
  | .number minimum _ => numberExample minimum
  | .integer minimum _ => (Decimal.ofInt ((minimum.map Int64.toInt).getD 0)).display
  | .boolean => "true".toList
  | .null => "null".toList
  | .anyOf [] => "null".toList
  | .anyOf (schema :: _) => schemaExample schema

def memberExamples : List (List Char × SchemaType) → List (List Char × List Char)
  | [] => []
  | (name, schema) :: properties => (name, schemaExample schema) :: memberExamples properties

end

end SchemaType

end Pictor
