import Mathlib
import Pictor.Library.Backtracking
import Pictor.Library.LineText

namespace Pictor.PreTokenize
open Backtracking

/-- The classes of characters beside white space. Letters and numbers may overlap. -/
structure CharClasses where
  isLetter : Char → Bool
  isNumber : Char → Bool
  solid : ∀ c, isWhitespace c = true → isLetter c = false ∧ isNumber c = false
  apostrophe : isLetter '\'' = false ∧ isNumber '\'' = false
  ascii : ∀ c, c.isAlpha = true → isLetter c = true
  longS : isLetter 'ſ' = true

def isNewline (c : Char) : Bool := c = '\r' || c = '\n'

variable (classes : CharClasses)

namespace CharClasses

/-- A character that is neither white space nor a letter nor a number. -/
def isSymbol (c : Char) : Bool := !isWhitespace c && !classes.isLetter c && !classes.isNumber c

/-- A character that may stand in front of the letters of a word. -/
def isLeading (c : Char) : Bool := !isNewline c && !classes.isLetter c && !classes.isNumber c

end CharClasses

/-- The number of characters at the start that belong to a class. -/
def run (inside : Char → Bool) (text : List Char) : Nat := (text.takeWhile inside).length

def matchContraction (text : List Char) : Option Nat :=
  match text with
  | _ :: first :: rest =>
      let c1 := first.toLower
      let three := rest.head?.any fun second =>
        (c1, second.toLower) = ('r', 'e') || (c1, second.toLower) = ('v', 'e') || (c1, second.toLower) = ('l', 'l')
      if three then some 3
      else if c1 = 's' || c1 = 't' || c1 = 'm' || c1 = 'd' then some 2
      else none
  | _ => none

def contraction (text : List Char) : Option Nat :=
  if text.head? = some '\'' ∧ 1 < text.length then matchContraction text else none

/-- An optional character and letters. -/
def word (text : List Char) : Option Nat :=
  let start := if text.head?.any classes.isLeading ∧ (text.drop 1).head?.any classes.isLetter then 1 else 0
  let count := run classes.isLetter (text.drop start)
  if 0 < count then some (start + count) else none

def number (text : List Char) : Option Nat := if text.head?.any classes.isNumber then some 1 else none

/-- An optional space, symbols and newlines. -/
def symbols (text : List Char) : Option Nat :=
  let start := if text.head? = some ' ' ∧ (text.drop 1).head?.any classes.isSymbol then 1 else 0
  let count := run classes.isSymbol (text.drop start)
  if 0 < count then some (start + count + run isNewline (text.drop (start + count))) else none

/-- White space and the first newlines in it. -/
def newlines (text : List Char) : Option Nat :=
  if text.head?.any isWhitespace then
    let start := run (fun c => isWhitespace c && !isNewline c) text
    let count := run isNewline (text.drop start)
    if 0 < count then some (start + count) else none
  else none

/-- White space. The last space is left for the next word. -/
def spaces (text : List Char) : Option Nat :=
  if text.head?.any isWhitespace then
    let count := run isWhitespace text
    if count = text.length then some count else if 2 ≤ count then some (count - 1) else some count
  else none

/-- The length of the next piece. -/
def nextPiece (text : List Char) : Nat :=
  ((contraction text).or ((word classes text).or ((number classes text).or ((symbols classes text).or
    ((newlines text).or (spaces text)))))).getD 1

/-- The pieces of a text. The loop may take as many steps as the bound. -/
def preTokenizeLoop : Nat → List Char → Option (List (List Char))
  | _, [] => some []
  | 0, _ :: _ => none
  | bound + 1, c :: rest =>
      let length := nextPiece classes (c :: rest)
      (preTokenizeLoop bound ((c :: rest).drop length)).map ((c :: rest).take length :: ·)

def preTokenize (text : List Char) : Option (List (List Char)) := preTokenizeLoop classes text.length text

/-- A letter without regard to its case. The only other form of a letter of the contractions is the long s. -/
def anyCase (letter c : Char) : Bool := c.toLower = letter || (letter = 's' && c = 'ſ')

def contractionPattern : Pattern Char :=
  .seq (.one (· = '\'')) (.alt (.one (anyCase 's')) (.alt (.one (anyCase 't'))
    (.alt (.seq (.one (anyCase 'r')) (.one (anyCase 'e'))) (.alt (.seq (.one (anyCase 'v')) (.one (anyCase 'e')))
      (.alt (.one (anyCase 'm')) (.alt (.seq (.one (anyCase 'l')) (.one (anyCase 'l'))) (.one (anyCase 'd'))))))))

def wordPattern : Pattern Char := .seq (.optional (.one classes.isLeading)) (.plus classes.isLetter)

def numberPattern : Pattern Char := .one classes.isNumber

def symbolsPattern : Pattern Char :=
  .seq (.optional (.one (· = ' '))) (.seq (.plus classes.isSymbol) (.many isNewline))

def newlinesPattern : Pattern Char := .seq (.many isWhitespace) (.plus isNewline)

def trailingPattern : Pattern Char := .seq (.plus isWhitespace) (.notBefore fun c => !isWhitespace c)

def spacesPattern : Pattern Char := .plus isWhitespace

/-- The documented regular expression. -/
def pattern : Pattern Char :=
  .alt contractionPattern (.alt (wordPattern classes) (.alt (numberPattern classes) (.alt (symbolsPattern classes)
    (.alt newlinesPattern (.alt trailingPattern spacesPattern)))))

end Pictor.PreTokenize

namespace Pictor.Qwen3Tokenizer

/-- The rank of each pair. -/
abbrev MergeRanks := AList fun _ : List Char × List Char => UInt32

/-- The ranks are the places in the list, as numbers of 32 bits. -/
def mergeRanks (pairs : List (List Char × List Char)) : MergeRanks :=
  pairs.zipIdx.foldl (fun ranks entry => ranks.insert entry.1 (UInt32.ofNat entry.2)) ∅

/-- The lowest rank so far, and a pair of this rank. -/
def bestStep (ranks : MergeRanks) (best : UInt32 × Option (List Char × List Char)) (pair : List Char × List Char) :
    UInt32 × Option (List Char × List Char) :=
  match ranks.lookup pair with
  | some rank => if rank < best.1 then (rank, some pair) else best
  | none => best

/-- The adjacent pair of the lowest rank. The search starts at the largest number. -/
def bestPair (ranks : MergeRanks) (word : List (List Char)) : Option (List Char × List Char) :=
  ((word.zip word.tail).foldl (bestStep ranks) (4294967295, none)).2

/-- All occurrences of a pair are merged from the left to the right. -/
def mergeAll (a b : List Char) : List (List Char) → List (List Char)
  | x :: y :: rest => if x = a ∧ y = b then (a ++ b) :: mergeAll a b rest else x :: mergeAll a b (y :: rest)
  | word => word

/-- The loop over the rounds. Each round removes a symbol, so their number bounds it. -/
def bpeLoop (ranks : MergeRanks) : Nat → List (List Char) → List (List Char)
  | 0, word => word
  | bound + 1, word =>
      match bestPair ranks word with
      | none => word
      | some (a, b) =>
          let merged := mergeAll a b word
          if merged.length < 2 then merged else bpeLoop ranks bound merged

def bpe (ranks : MergeRanks) (token : List Char) : List (List Char) :=
  let word := token.map fun c => [c]
  if word.length < 2 then word else bpeLoop ranks word.length word

end Pictor.Qwen3Tokenizer
