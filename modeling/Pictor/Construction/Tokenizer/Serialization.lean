import Mathlib
import Pictor.Library.LineText

namespace Pictor
open LineText

namespace Serialization

def formatMagic : List Char := "pictortokenizer v1".toList

inductive SerializationError where
  | io
  | invalidMagic (expected got : List Char)
  | parseError (line : Nat) (msg : List Char)
  | base64Error (msg : List Char)
  | duplicateId (id : UInt32)
  deriving DecidableEq

def base64Chars : List Char :=
  "ABCDEFGHIJKLMNOPQRSTUVWXYZabcdefghijklmnopqrstuvwxyz0123456789+/".toList

def base64Char (index : Nat) : Char := base64Chars.getD index 'A'

/-- Three bytes give four characters. The last group is filled with `=`. -/
def base64Encode : List UInt8 → List Char
  | [] => []
  | [b0] =>
      let combined := b0.toNat <<< 16
      [base64Char (combined >>> 18 &&& 0x3f), base64Char (combined >>> 12 &&& 0x3f), '=', '=']
  | [b0, b1] =>
      let combined := b0.toNat <<< 16 ||| b1.toNat <<< 8
      [base64Char (combined >>> 18 &&& 0x3f), base64Char (combined >>> 12 &&& 0x3f),
        base64Char (combined >>> 6 &&& 0x3f), '=']
  | b0 :: b1 :: b2 :: rest =>
      let combined := b0.toNat <<< 16 ||| b1.toNat <<< 8 ||| b2.toNat
      base64Char (combined >>> 18 &&& 0x3f) :: base64Char (combined >>> 12 &&& 0x3f) ::
        base64Char (combined >>> 6 &&& 0x3f) :: base64Char (combined &&& 0x3f) :: base64Encode rest

def decodeChar (c : UInt8) : Except SerializationError Nat :=
  if 0x41 ≤ c ∧ c ≤ 0x5a then .ok (c.toNat - 0x41)
  else if 0x61 ≤ c ∧ c ≤ 0x7a then .ok (c.toNat - 0x61 + 26)
  else if 0x30 ≤ c ∧ c ≤ 0x39 then .ok (c.toNat - 0x30 + 52)
  else if c = 0x2b then .ok 62
  else if c = 0x2f then .ok 63
  else .error (.base64Error ("invalid char '".toList ++ [Char.ofUInt8 c] ++ ['\'']))

/-- The groups of four characters. -/
def decodeChunks : List UInt8 → Except SerializationError (List UInt8)
  | [] => .ok []
  | [_] => .error (.base64Error "truncated base64 group of 1 char".toList)
  | [c0, c1] => do
      let v0 ← decodeChar c0
      let v1 ← decodeChar c1
      let combined := v0 <<< 18 ||| v1 <<< 12
      return [UInt8.ofNat (combined >>> 16 &&& 0xff)]
  | [c0, c1, c2] => do
      let v0 ← decodeChar c0
      let v1 ← decodeChar c1
      let v2 ← decodeChar c2
      let combined := v0 <<< 18 ||| v1 <<< 12 ||| v2 <<< 6
      return [UInt8.ofNat (combined >>> 16 &&& 0xff), UInt8.ofNat (combined >>> 8 &&& 0xff)]
  | c0 :: c1 :: c2 :: c3 :: rest => do
      let v0 ← decodeChar c0
      let v1 ← decodeChar c1
      let v2 ← decodeChar c2
      let v3 ← decodeChar c3
      let combined := v0 <<< 18 ||| v1 <<< 12 ||| v2 <<< 6 ||| v3
      let out ← decodeChunks rest
      return UInt8.ofNat (combined >>> 16 &&& 0xff) :: UInt8.ofNat (combined >>> 8 &&& 0xff) ::
        UInt8.ofNat (combined &&& 0xff) :: out

def base64Decode (text : List Char) : Except SerializationError (List UInt8) :=
  decodeChunks (Utf8.encode (text.rdropWhile (· = '=')))

end Serialization

structure TokenizerState where
  vocab : AList fun _ : UInt32 => List Char
  merges : List (UInt32 × UInt32 × UInt32)
  specialTokens : AList fun _ : List Char => UInt32

namespace TokenizerState
open Serialization

def new : TokenizerState := ⟨∅, [], ∅⟩

def display (value : UInt32) : List Char := Nat.toDigits 10 value.toNat

def tokenLine (entry : UInt32 × List Char) : List Char :=
  "tok_id ".toList ++ display entry.1 ++ [' '] ++ base64Encode (Utf8.encode entry.2)

def mergeLine (merge : UInt32 × UInt32 × UInt32) : List Char :=
  "merge ".toList ++ display merge.1 ++ [' '] ++ display merge.2.1 ++ [' '] ++ display merge.2.2

def specialLine (entry : List Char × UInt32) : List Char :=
  "special ".toList ++ base64Encode (Utf8.encode entry.1) ++ [' '] ++ display entry.2

/-- The vocabulary in the order of the ids. -/
def vocabEntries (state : TokenizerState) : List (UInt32 × List Char) :=
  (state.vocab.entries.map fun entry => (entry.1, entry.2)).insertionSort fun first second =>
    first.1 ≤ second.1

/-- The special tokens in the order of the names. -/
def specialEntries (state : TokenizerState) : List (List Char × UInt32) :=
  (state.specialTokens.entries.map fun entry => (entry.1, entry.2)).insertionSort fun first second =>
    first.1 ≤ second.1

def saveLines (state : TokenizerState) : List (List Char) :=
  [formatMagic, "vocab_size ".toList ++ Nat.toDigits 10 state.vocab.entries.length,
    "merges ".toList ++ Nat.toDigits 10 state.merges.length] ++
    state.vocabEntries.map tokenLine ++ state.merges.map mergeLine ++ state.specialEntries.map specialLine

/-- The bytes that are written. -/
def saveTo (state : TokenizerState) : List UInt8 :=
  Utf8.encode (state.saveLines.flatMap fun line => line ++ ['\n'])

/-- The next line and the lines after it. -/
def nextLine (lineNo : Nat) : List (Option (List Char)) →
    Except SerializationError (List Char × List (Option (List Char)))
  | [] => .error (.parseError lineNo "unexpected end of file".toList)
  | none :: _ => .error .io
  | some line :: rest => .ok (line, rest)

def usizeMax : Nat := 2 ^ 64 - 1

def u32Max : Nat := 2 ^ 32 - 1

def parseCountLine (line keyword : List Char) (lineNo : Nat) : Except SerializationError Nat :=
  match splitn 2 (trim line) with
  | [word, count] =>
      if word ≠ keyword then
        .error (.parseError lineNo ("expected '".toList ++ keyword ++ " <N>', got '".toList ++ line ++ ['\'']))
      else
        match parseUnsigned usizeMax count with
        | some count => .ok count
        | none => .error (.parseError lineNo ("invalid count value '".toList ++ count ++ ['\'']))
  | _ => .error (.parseError lineNo ("expected '".toList ++ keyword ++ " <N>', got '".toList ++ line ++ ['\'']))

/-- A number field of a line, with the message of its error. -/
def parseId (lineNo : Nat) (what field : List Char) : Except SerializationError UInt32 :=
  match parseUnsigned u32Max field with
  | some value => .ok (UInt32.ofNat value)
  | none => .error (.parseError lineNo (what ++ " '".toList ++ field ++ ['\'']))

def parseText (lineNo : Nat) (what field : List Char) : Except SerializationError (List Char) := do
  let bytes ← base64Decode field
  match Utf8.decode bytes with
  | some text => return text
  | none => throw (.parseError lineNo (what ++ " is not valid UTF-8".toList))

def parseTokenLine (line : List Char) (lineNo : Nat) : Except SerializationError (UInt32 × List Char) :=
  match splitn 3 (trim line) with
  | [word, id, field] =>
      if word ≠ "tok_id".toList then
        .error (.parseError lineNo ("expected 'tok_id <id> <b64>', got '".toList ++ line ++ ['\'']))
      else do
        let id ← parseId lineNo "invalid token id".toList id
        let token ← parseText lineNo "token text".toList field
        return (id, token)
  | _ => .error (.parseError lineNo ("expected 'tok_id <id> <b64>', got '".toList ++ line ++ ['\'']))

def parseMergeLine (line : List Char) (lineNo : Nat) :
    Except SerializationError (UInt32 × UInt32 × UInt32) :=
  match splitn 4 (trim line) with
  | [word, left, right, merged] =>
      if word ≠ "merge".toList then
        .error (.parseError lineNo ("expected 'merge <left> <right> <merged>', got '".toList ++ line ++ ['\'']))
      else do
        let left ← parseId lineNo "invalid merge left id".toList left
        let right ← parseId lineNo "invalid merge right id".toList right
        let merged ← parseId lineNo "invalid merge merged id".toList merged
        return (left, right, merged)
  | _ => .error
      (.parseError lineNo ("expected 'merge <left> <right> <merged>', got '".toList ++ line ++ ['\'']))

/-- The line is trimmed before. -/
def parseSpecialLine (line : List Char) (lineNo : Nat) :
    Except SerializationError (List Char × UInt32) :=
  match splitn 3 line with
  | [word, field, id] =>
      if word ≠ "special".toList then
        .error (.parseError lineNo ("expected 'special <b64> <id>', got '".toList ++ line ++ ['\'']))
      else do
        let name ← parseText lineNo "special token name".toList field
        let id ← parseId lineNo "invalid special token id".toList id
        return (name, id)
  | _ => .error (.parseError lineNo ("expected 'special <b64> <id>', got '".toList ++ line ++ ['\'']))

/-- The vocabulary after the lines that are left, and the lines after them. -/
def readVocab : Nat → Nat → List (Option (List Char)) → (AList fun _ : UInt32 => List Char) →
    Except SerializationError ((AList fun _ : UInt32 => List Char) × List (Option (List Char)))
  | 0, _, lines, vocab => .ok (vocab, lines)
  | remaining + 1, lineNo, lines, vocab => do
      let (line, lines) ← nextLine lineNo lines
      let (id, token) ← parseTokenLine line lineNo
      if id ∈ vocab then throw (.duplicateId id)
      readVocab remaining (lineNo + 1) lines (vocab.insert id token)

def readMerges : Nat → Nat → List (Option (List Char)) → List (UInt32 × UInt32 × UInt32) →
    Except SerializationError (List (UInt32 × UInt32 × UInt32) × List (Option (List Char)))
  | 0, _, lines, merges => .ok (merges, lines)
  | remaining + 1, lineNo, lines, merges => do
      let (line, lines) ← nextLine lineNo lines
      let merge ← parseMergeLine line lineNo
      readMerges remaining (lineNo + 1) lines (merges ++ [merge])

def readSpecials : Nat → List (Option (List Char)) → (AList fun _ : List Char => UInt32) →
    Except SerializationError (AList fun _ : List Char => UInt32)
  | _, [], specials => .ok specials
  | _, none :: _, _ => .error .io
  | lineNo, some line :: lines, specials =>
      let line := trim line
      if line = [] then readSpecials (lineNo + 1) lines specials
      else do
        let (name, id) ← parseSpecialLine line lineNo
        readSpecials (lineNo + 1) lines (specials.insert name id)

def loadFrom (bytes : List UInt8) : Except SerializationError TokenizerState := do
  let (magicLine, rest) ← nextLine 1 (lines bytes)
  if trim magicLine ≠ formatMagic then throw (.invalidMagic formatMagic (trim magicLine))
  let (vocabSizeLine, rest) ← nextLine 2 rest
  let vocabSize ← parseCountLine vocabSizeLine "vocab_size".toList 2
  let (mergesLine, rest) ← nextLine 3 rest
  let mergesCount ← parseCountLine mergesLine "merges".toList 3
  let (vocab, rest) ← readVocab vocabSize 4 rest ∅
  let (merges, rest) ← readMerges mergesCount (4 + vocabSize) rest []
  let specialTokens ← readSpecials (4 + vocabSize + mergesCount) rest ∅
  return ⟨vocab, merges, specialTokens⟩

end TokenizerState

end Pictor
