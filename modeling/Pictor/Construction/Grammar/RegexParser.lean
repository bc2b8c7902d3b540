import Mathlib.Computability.Language

namespace Pictor

inductive RegexCompileError where
  | invalidSyntax (message : String)
  | unsupportedFeature (feature : String)
  | depthExceeded (limit : Nat)
  | emptyPattern
  | invalidUtf8 (message : String)
  deriving DecidableEq, Repr

/-- Bit b & 63 of word b >> 6 stands for the byte b. -/
structure ByteSet where
  words : Fin 4 → UInt64

namespace ByteSet

def wordOf (b : UInt8) : Fin 4 := ⟨b.toNat / 64, by have := b.toNat_lt; omega⟩

def bitOf (b : UInt8) : UInt64 := 1 <<< (b &&& 63).toUInt64

def empty : ByteSet := ⟨fun _ => 0⟩

def full : ByteSet := ⟨fun _ => 0xffffffffffffffff⟩

def insert (set : ByteSet) (b : UInt8) : ByteSet :=
  ⟨fun word => if word = wordOf b then set.words word ||| bitOf b else set.words word⟩

def remove (set : ByteSet) (b : UInt8) : ByteSet :=
  ⟨fun word => if word = wordOf b then set.words word &&& ~~~bitOf b else set.words word⟩

def contains (set : ByteSet) (b : UInt8) : Bool := set.words (wordOf b) &&& bitOf b != 0

def complement (set : ByteSet) : ByteSet := ⟨fun word => ~~~set.words word⟩

def union (set other : ByteSet) : ByteSet := ⟨fun word => set.words word ||| other.words word⟩

def anyExceptNewline : ByteSet := full.remove 10

def single (b : UInt8) : ByteSet := empty.insert b

/-- The bytes from a first one to a last one. -/
def insertRange (set : ByteSet) (first last : UInt8) : ByteSet :=
  (List.range' first.toNat (last.toNat + 1 - first.toNat)).foldl
    (fun set b => set.insert (UInt8.ofNat b)) set

/-- The bytes of the set in rising order. -/
def bytes (set : ByteSet) : List UInt8 := ((List.range 256).map UInt8.ofNat).filter set.contains

def digitSet : ByteSet := empty.insertRange 48 57

def wordSet : ByteSet :=
  (((empty.insertRange 65 90).insertRange 97 122).insertRange 48 57).insert 95

def spaceSet : ByteSet := [32, 9, 10, 13, 11, 12].foldl insert empty

end ByteSet

inductive RegexNode where
  | byteClass (set : ByteSet)
  | concat (nodes : List RegexNode)
  | alternation (nodes : List RegexNode)
  | star (inner : RegexNode)
  | plus (inner : RegexNode)
  | optional (inner : RegexNode)
  | countedExact (inner : RegexNode) (n : Nat)
  | countedRange (inner : RegexNode) (n : Nat) (m : Option Nat)
  | empty

def maxRepetition : Nat := 64

/-- The result of a parser with a bounded recursion: no result means that the bound is used up. -/
abbrev RegexParse := ExceptT RegexCompileError Option

namespace RegexParser

def outOfFuel {Result : Type} : RegexParse Result := ExceptT.mk none

/-- The character of a byte. -/
def charOf (b : UInt8) : String := String.singleton (Char.ofNat b.toNat)

def isMetaEscapable (b : UInt8) : Bool :=
  b ∈ ([46, 92, 91, 93, 40, 41, 42, 43, 63, 123, 125, 124, 94, 36, 48] : List UInt8)

variable (input : List UInt8)

def peek (pos : Nat) : Option UInt8 := input[pos]?

/-- The position after the expected byte. -/
def expect (expected : UInt8) (pos : Nat) : RegexParse Nat :=
  match peek input pos with
  | some b =>
      if b = expected then pure (pos + 1)
      else throw (.invalidSyntax ("expected '" ++ charOf expected ++ "' at position " ++ toString pos ++
        ", got '" ++ charOf b ++ "'"))
  | none => throw (.invalidSyntax ("expected '" ++ charOf expected ++ "' at position " ++ toString pos ++
      " but got end of pattern"))

def isDigit (b : UInt8) : Bool := 48 ≤ b && b ≤ 57

/-- A number outside the machine words is an error. -/
def parseDecimalNumber (pos : Nat) : RegexParse (Nat × Nat) :=
  let digits := (input.drop pos).takeWhile isDigit
  let value := digits.foldl (fun value b => value * 10 + (b.toNat - 48)) 0
  if digits = [] then
    throw (.invalidSyntax ("expected decimal number at position " ++ toString pos))
  else if 2 ^ 64 ≤ value then
    throw (.invalidSyntax "overflow in decimal number: number too large to fit in target type")
  else pure (value, pos + digits.length)

/-- The position is at the opening brace. -/
def parseCountedQuantifier (atom : RegexNode) (pos : Nat) : RegexParse (RegexNode × Nat) := do
  let (n, pos) ← parseDecimalNumber input (pos + 1)
  match peek input pos with
  | some 125 =>
      if maxRepetition < n then throw (.depthExceeded maxRepetition)
      else pure (.countedExact atom n, pos + 1)
  | some 44 =>
      match peek input (pos + 1) with
      | some 125 =>
          if maxRepetition < n then throw (.depthExceeded maxRepetition)
          else pure (.countedRange atom n none, pos + 2)
      | _ => do
          let (m, pos) ← parseDecimalNumber input (pos + 1)
          let pos ← expect input 125 pos
          if m < n then throw (.invalidSyntax ("\x7bn,m\x7d quantifier has n=" ++ toString n ++ " > m=" ++
            toString m))
          else if maxRepetition < m then throw (.depthExceeded maxRepetition)
          else pure (.countedRange atom n (some m), pos)
  | some other => throw (.invalidSyntax ("unexpected '" ++ toString other.toNat ++
      "' inside \x7b\x7d quantifier at position " ++ toString pos))
  | none => throw (.invalidSyntax "unterminated '\x7b' quantifier")

/-- The position is after the backslash. -/
def parseEscapeToSet (pos : Nat) : RegexParse (ByteSet × Nat) :=
  match peek input pos with
  | none => throw (.invalidSyntax "trailing backslash in pattern")
  | some 100 => pure (.digitSet, pos + 1)
  | some 68 => pure (ByteSet.digitSet.complement, pos + 1)
  | some 119 => pure (.wordSet, pos + 1)
  | some 87 => pure (ByteSet.wordSet.complement, pos + 1)
  | some 115 => pure (.spaceSet, pos + 1)
  | some 83 => pure (ByteSet.spaceSet.complement, pos + 1)
  | some 110 => pure (.single 10, pos + 1)
  | some 114 => pure (.single 13, pos + 1)
  | some 116 => pure (.single 9, pos + 1)
  | some b =>
      if isMetaEscapable b then pure (.single b, pos + 1)
      else if 49 ≤ b ∧ b ≤ 57 then
        throw (.unsupportedFeature "backreferences (\\1, \\2, ...) are not supported")
      else if b = 112 then
        throw (.unsupportedFeature "Unicode properties (\\p\x7b...\x7d) are not supported")
      else throw (.invalidSyntax ("unknown escape sequence '\\" ++ charOf b ++ "'"))

def parseEscape (pos : Nat) : RegexParse (RegexNode × Nat) := do
  let (set, pos) ← parseEscapeToSet input pos
  pure (.byteClass set, pos)

/-- The loop over the members of a class, with the first member marked. -/
def parseClassItems : Nat → ByteSet → Bool → Nat → RegexParse (ByteSet × Nat)
  | 0, _, _, _ => outOfFuel
  | fuel + 1, set, first, pos =>
      match peek input pos with
      | none => throw (.invalidSyntax "unterminated character class '['")
      | some b =>
          if b = 93 ∧ first = false then pure (set, pos + 1)
          else if b = 92 then do
            let (escapedSet, pos) ← parseEscapeToSet input (pos + 1)
            parseClassItems fuel (set.union escapedSet) false pos
          else if peek input (pos + 1) = some 45 ∧ peek input (pos + 2) ≠ some 93 then
            match peek input (pos + 2) with
            | some last =>
                if last < b then throw (.invalidSyntax ("character class range end '" ++
                  toString last.toNat ++ "' < start '" ++ toString b.toNat ++ "'"))
                else parseClassItems fuel (set.insertRange b last) false (pos + 3)
            | none => throw (.invalidSyntax "unterminated character class range")
          else parseClassItems fuel (set.insert b) false (pos + 1)

/-- The position is after the opening bracket. -/
def parseCharClass (pos : Nat) : RegexParse (RegexNode × Nat) :=
  if peek input pos = some 94 then do
    let (set, pos) ← parseClassItems input (input.length + 1) .empty true (pos + 1)
    pure (.byteClass set.complement, pos)
  else do
    let (set, pos) ← parseClassItems input (input.length + 1) .empty true pos
    pure (.byteClass set, pos)

/-- The position after the prefix of a group. -/
def groupPrefix (pos : Nat) : RegexParse Nat :=
  if peek input pos = some 63 then
    match peek input (pos + 1) with
    | some 61 | some 33 =>
        throw (.unsupportedFeature "lookahead assertions (?=...) and (?!...) are not supported")
    | some 60 =>
        match peek input (pos + 2) with
        | some 61 | some 33 =>
            throw (.unsupportedFeature "lookbehind assertions (?<=...) and (?<!...) are not supported")
        | _ => throw (.unsupportedFeature "named groups (?<name>...) are not supported")
    | some 80 => throw (.unsupportedFeature "named groups (?P<name>...) are not supported")
    | some 58 => pure (pos + 2)
    | other => throw (.unsupportedFeature ("unsupported group type starting with '(?" ++
        (other.map charOf).getD "?" ++ "' at position " ++ toString pos))
  else pure pos

/-- One atom or no atom stands for itself. -/
def concatNode : List RegexNode → RegexNode
  | [] => .empty
  | [atom] => atom
  | atoms => .concat atoms

def alternationNode : List RegexNode → RegexNode
  | [branch] => branch
  | branches => .alternation branches

/-- The quantifier of an atom. -/
def parseQuantifier (atom : RegexNode) (pos : Nat) : RegexParse (RegexNode × Nat) :=
  match peek input pos with
  | some 42 => pure (.star atom, pos + 1)
  | some 43 => pure (.plus atom, pos + 1)
  | some 63 => pure (.optional atom, pos + 1)
  | some 123 => parseCountedQuantifier input atom pos
  | _ => pure (atom, pos)

/-- An empty atom is dropped. -/
def pushAtom (atoms : List RegexNode) : RegexNode → List RegexNode
  | .empty => atoms
  | atom => atoms ++ [atom]

mutual

def parseAlternation : Nat → Nat → RegexParse (RegexNode × Nat)
  | 0, _ => outOfFuel
  | fuel + 1, pos => do
      let (first, pos) ← parseConcat fuel pos
      let (branches, pos) ← parseBranches fuel [first] pos
      pure (alternationNode branches, pos)

def parseBranches : Nat → List RegexNode → Nat → RegexParse (List RegexNode × Nat)
  | 0, _, _ => outOfFuel
  | fuel + 1, branches, pos =>
      if peek input pos = some 124 then do
        let (branch, pos) ← parseConcat fuel (pos + 1)
        parseBranches fuel (branches ++ [branch]) pos
      else pure (branches, pos)

def parseConcat : Nat → Nat → RegexParse (RegexNode × Nat)
  | 0, _ => outOfFuel
  | fuel + 1, pos => do
      let (atoms, pos) ← parseAtoms fuel [] pos
      pure (concatNode atoms, pos)

def parseAtoms : Nat → List RegexNode → Nat → RegexParse (List RegexNode × Nat)
  | 0, _, _ => outOfFuel
  | fuel + 1, atoms, pos =>
      match peek input pos with
      | none | some 41 | some 124 => pure (atoms, pos)
      | some _ => do
          let (atom, pos) ← parseQuantifiedAtom fuel pos
          parseAtoms fuel (pushAtom atoms atom) pos

def parseQuantifiedAtom : Nat → Nat → RegexParse (RegexNode × Nat)
  | 0, _ => outOfFuel
  | fuel + 1, pos => do
      let (atom, pos) ← parseAtom fuel pos
      parseQuantifier input atom pos

/-- The anchors are silently ignored. -/
def parseAtom : Nat → Nat → RegexParse (RegexNode × Nat)
  | 0, _ => outOfFuel
  | fuel + 1, pos =>
      match peek input pos with
      | some 94 | some 36 => pure (.empty, pos + 1)
      | some 46 => pure (.byteClass .anyExceptNewline, pos + 1)
      | some 91 => parseCharClass input (pos + 1)
      | some 40 => parseGroup fuel (pos + 1)
      | some 92 => parseEscape input (pos + 1)
      | some b => pure (.byteClass (.single b), pos + 1)
      | none => throw (.invalidSyntax "unexpected end of pattern in atom")

def parseGroup : Nat → Nat → RegexParse (RegexNode × Nat)
  | 0, _ => outOfFuel
  | fuel + 1, pos => do
      let pos ← groupPrefix input pos
      let (inner, pos) ← parseAlternation fuel pos
      let pos ← expect input 41 pos
      pure (inner, pos)

end

end RegexParser

end Pictor
