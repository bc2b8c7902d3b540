import Pictor.Library.LineText

namespace Pictor

inductive JsonParseState where
  | start
  | inObject
  | inObjectKey
  | afterKey
  | inObjectValue
  | inArray
  | inArrayValue
  | inString
  | inStringEscape
  | inNumber
  | inBool
  | inNull
  | complete
  | error
  deriving DecidableEq, Repr

/-- The top of the context stack is the first element. The characters are o for an object and a for an
array. -/
structure JsonConstraint where
  state : JsonParseState
  depth : Nat
  expectingCommaOrClose : Bool
  keywordBuf : List Char
  contextStack : List Char
  deriving DecidableEq, Repr

def startsNumber (c : Char) : Bool := c = '-' || ('0' ≤ c && c ≤ '9')

def continuesNumber (c : Char) : Bool :=
  ('0' ≤ c && c ≤ '9') || c = '.' || c = 'e' || c = 'E' || c = '+' || c = '-'

namespace JsonConstraint

def new : JsonConstraint := ⟨.start, 0, false, [], []⟩

def fail (machine : JsonConstraint) : JsonConstraint := { machine with state := .error }

/-- The start of a value. The start state of the machine has the same branches. -/
def startValue (machine : JsonConstraint) (ch : Char) : JsonConstraint :=
  if ch = '{' then
    { machine with
      depth := machine.depth + 1
      contextStack := 'o' :: machine.contextStack
      state := .inObject
      expectingCommaOrClose := false }
  else if ch = '[' then
    { machine with
      depth := machine.depth + 1
      contextStack := 'a' :: machine.contextStack
      state := .inArray
      expectingCommaOrClose := false }
  else if ch = '"' then { machine with state := .inString }
  else if startsNumber ch then { machine with state := .inNumber, keywordBuf := [ch] }
  else if ch = 't' ∨ ch = 'f' then { machine with state := .inBool, keywordBuf := [ch] }
  else if ch = 'n' then { machine with state := .inNull, keywordBuf := [ch] }
  else machine.fail

/-- The state that the context stack asks for after a value. -/
def stateAfter : List Char → JsonParseState
  | [] => .complete
  | 'o' :: _ => .inObject
  | 'a' :: _ => .inArray
  | _ => .error

def finishValue (machine : JsonConstraint) : JsonConstraint :=
  { machine with expectingCommaOrClose := true, state := stateAfter machine.contextStack }

/-- A string sets the flag only inside an object or an array. -/
def finishString (machine : JsonConstraint) : JsonConstraint :=
  match machine.contextStack with
  | 'o' :: _ => { machine with state := .inObject, expectingCommaOrClose := true }
  | 'a' :: _ => { machine with state := .inArray, expectingCommaOrClose := true }
  | [] => { machine with state := .complete }
  | _ => machine.fail

def closeContext (machine : JsonConstraint) : JsonConstraint :=
  match machine.contextStack with
  | context :: rest =>
      { machine with
        contextStack := rest
        depth := if context = 'o' ∨ context = 'a' then machine.depth - 1 else machine.depth
        expectingCommaOrClose := true
        state := stateAfter rest }
  | [] => { machine with expectingCommaOrClose := true, state := .complete }

local instance lawfulKeyword : LawfulBEq (List Char) := List.instLawfulBEq

/-- One letter of a keyword. -/
def feedKeyword (machine : JsonConstraint) (keywords : List (List Char)) (ch : Char) : JsonConstraint :=
  let kb := machine.keywordBuf ++ [ch]
  if kb ∈ keywords then { machine with keywordBuf := [] }.finishValue
  else if keywords.any kb.isPrefixOf then { machine with keywordBuf := kb }
  else { machine with keywordBuf := kb }.fail

def feedInObject (machine : JsonConstraint) (ch : Char) : JsonConstraint :=
  if isWhitespace ch then machine
  else if machine.expectingCommaOrClose then
    if ch = ',' then { machine with expectingCommaOrClose := false }
    else if ch = '}' then machine.closeContext
    else machine.fail
  else if ch = '"' then { machine with state := .inObjectKey }
  else if ch = '}' then machine.closeContext
  else machine.fail

def feedInArray (machine : JsonConstraint) (ch : Char) : JsonConstraint :=
  if isWhitespace ch then machine
  else if machine.expectingCommaOrClose then
    if ch = ',' then { machine with expectingCommaOrClose := false }
    else if ch = ']' then machine.closeContext
    else machine.fail
  else if ch = ']' then machine.closeContext
  else machine.startValue ch

def feedInArrayValue (machine : JsonConstraint) (ch : Char) : JsonConstraint :=
  if isWhitespace ch then machine
  else if machine.expectingCommaOrClose then
    if machine.contextStack.head? = some 'a' then
      if ch = ',' then { machine with expectingCommaOrClose := false, state := .inArray }
      else if ch = ']' then machine.closeContext
      else machine.fail
    else if ch = ',' then { machine with expectingCommaOrClose := false, state := .inObject }
    else if ch = '}' then machine.closeContext
    else machine.fail
  else machine.startValue ch

/-- One character in every state but that of a number, which ends in front of the character. -/
def feedSettled (machine : JsonConstraint) (ch : Char) : JsonConstraint :=
  match machine.state with
  | .error => machine
  | .complete => if isWhitespace ch then machine else machine.fail
  | .start => if isWhitespace ch then machine else machine.startValue ch
  | .inObject => machine.feedInObject ch
  | .inObjectKey =>
      if ch = '"' then { machine with state := .afterKey }
      else if ch = '\\' then { machine with state := .inStringEscape }
      else machine
  | .afterKey =>
      if isWhitespace ch then machine
      else if ch = ':' then { machine with state := .inObjectValue, expectingCommaOrClose := false }
      else machine.fail
  | .inObjectValue => if isWhitespace ch then machine else machine.startValue ch
  | .inArray => machine.feedInArray ch
  | .inArrayValue => machine.feedInArrayValue ch
  | .inString =>
      if ch = '"' then machine.finishString
      else if ch = '\\' then { machine with state := .inStringEscape }
      else machine
  | .inStringEscape => { machine with state := .inString }
  | .inNumber => machine
  | .inBool => machine.feedKeyword [['t', 'r', 'u', 'e'], ['f', 'a', 'l', 's', 'e']] ch
  | .inNull => machine.feedKeyword [['n', 'u', 'l', 'l']] ch

/-- A character that does not belong to a number is fed again after the number. -/
def feedChar (machine : JsonConstraint) (ch : Char) : JsonConstraint :=
  if machine.state = .inNumber then
    if continuesNumber ch then { machine with keywordBuf := machine.keywordBuf ++ [ch] }
    else machine.finishValue.feedSettled ch
  else machine.feedSettled ch

/-- A token is a code point. A token that is no character changes nothing. -/
def advance (machine : JsonConstraint) (token : UInt32) : Bool × JsonConstraint :=
  if machine.state = .error then (false, machine)
  else
    let fed := if valid : token.isValidChar then machine.feedChar ⟨token, valid⟩ else machine
    (fed.state ≠ .error, fed)

def isComplete (machine : JsonConstraint) : Bool := machine.state = .complete

/-- The characters of the mask in front of a value. -/
def valueChars : List Char :=
  ['{', '[', '"', '-', '0', '1', '2', '3', '4', '5', '6', '7', '8', '9', 't', 'f', 'n', ' ', '\t', '\n']

/-- The characters of the mask inside a string or a key. -/
def stringChars : List Char :=
  (((List.range' 0x20 (0x7f - 0x20)).filter (· ≠ 0x22)).map Char.ofNat) ++ ['"', '\\']

/-- The characters of the mask inside a keyword. -/
def keywordChars : List Char :=
  ['r', 'u', 'e', 'a', 'l', 's', 'i', 'o', 'n', 't', 'f', ',', '}', ']', ' ', '\t', '\n']

def validNextChars (machine : JsonConstraint) : List Char :=
  match machine.state with
  | .start => valueChars
  | .inObject =>
      if machine.expectingCommaOrClose then [',', '}', ' ', '\t', '\n'] else ['"', '}', ' ', '\t', '\n']
  | .inObjectKey => stringChars
  | .afterKey => [':', ' ', '\t']
  | .inObjectValue | .inArrayValue | .inArray =>
      if machine.expectingCommaOrClose then
        if machine.contextStack.head? = some 'o' then [',', '}', ' ', '\t', '\n']
        else [',', ']', ' ', '\t', '\n']
      else valueChars
  | .inString => stringChars
  | .inStringEscape => ['"', '\\', '/', 'b', 'f', 'n', 'r', 't', 'u']
  | .inNumber =>
      ['0', '1', '2', '3', '4', '5', '6', '7', '8', '9', '.', 'e', 'E', '+', '-', ',', '}', ']', ' ', '\t', '\n']
  | .inBool | .inNull => keywordChars
  | .complete => [' ', '\t', '\n']
  | .error => []

/-- The character of a token. A token that is no code point stands for the replacement character. -/
def tokenChar (id : Nat) : Char :=
  if valid : (UInt32.ofNat id).isValidChar then ⟨UInt32.ofNat id, valid⟩ else '\uFFFD'

/-- The mask allows the listed characters and every token outside ASCII. -/
def allowedTokens (machine : JsonConstraint) (_generated : List UInt32) (vocabSize : Nat) : Option (List Bool) :=
  if machine.state = .error then some (List.replicate vocabSize false)
  else
    let valid := machine.validNextChars
    some ((List.range vocabSize).map fun id =>
      let ch := tokenChar id
      127 < ch.toNat || valid.contains ch)

end JsonConstraint

end Pictor
