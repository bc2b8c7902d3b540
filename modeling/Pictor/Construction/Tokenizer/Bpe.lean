import Mathlib.Data.List.AList
import Mathlib.Data.List.MinMax
import Pictor.Library.LineText

namespace Pictor

structure Vocabulary where
  tokenToId : AList fun _ : List Char => UInt32
  idToToken : AList fun _ : UInt32 => List Char
  specialTokens : AList fun _ : List Char => UInt32

namespace Vocabulary

def new : Vocabulary := ⟨∅, ∅, ∅⟩

/-- A token or an id that exists is overwritten in its own map only. -/
def insert (vocab : Vocabulary) (token : List Char) (id : UInt32) : Vocabulary :=
  { vocab with
    tokenToId := vocab.tokenToId.insert token id
    idToToken := vocab.idToToken.insert id token }

def addSpecial (vocab : Vocabulary) (token : List Char) (id : UInt32) : Vocabulary :=
  { vocab with specialTokens := vocab.specialTokens.insert token id }.insert token id

def getId (vocab : Vocabulary) (token : List Char) : Option UInt32 := vocab.tokenToId.lookup token

def getToken (vocab : Vocabulary) (id : UInt32) : Option (List Char) := vocab.idToToken.lookup id

def isSpecialToken (vocab : Vocabulary) (token : List Char) : Bool := (vocab.specialTokens.lookup token).isSome

/-- The two ways to change a vocabulary. -/
inductive Call where
  | insert (token : List Char) (id : UInt32)
  | addSpecial (token : List Char) (id : UInt32)

def perform (vocab : Vocabulary) : Call → Vocabulary
  | .insert token id => vocab.insert token id
  | .addSpecial token id => vocab.addSpecial token id

section Insert

variable (vocab : Vocabulary) (token : List Char) (id : UInt32)

theorem getId_insert (other : List Char) :
    (vocab.insert token id).getId other = if other = token then some id else vocab.getId other := by
  by_cases same : other = token
  · rw [if_pos same, same]
    exact AList.lookup_insert _
  · rw [if_neg same]
    exact AList.lookup_insert_ne same

theorem getToken_insert (other : UInt32) :
    (vocab.insert token id).getToken other = if other = id then some token else vocab.getToken other := by
  by_cases same : other = id
  · rw [if_pos same, same]
    exact AList.lookup_insert _
  · rw [if_neg same]
    exact AList.lookup_insert_ne same

end Insert

end Vocabulary

end Pictor

namespace Pictor.ByteLevel

/-- The bytes that map to themselves. -/
def printable (byte : Nat) : Bool :=
  (0x21 ≤ byte && byte ≤ 0x7e) || (0xa1 ≤ byte && byte ≤ 0xac) || (0xae ≤ byte && byte ≤ 0xff)

/-- The table of the first bytes, and the number of those that do not map to themselves. -/
def buildTable : Nat → List Char × Nat
  | 0 => ([], 0)
  | byte + 1 =>
      let built := buildTable byte
      if printable byte then (built.1 ++ [Char.ofNat byte], built.2)
      else (built.1 ++ [Char.ofNat (0x100 + built.2)], built.2 + 1)

def bytesToUnicodeMap : List Char := (buildTable 256).1

def byteToUnicode (byte : UInt8) : Char := bytesToUnicodeMap.getD byte.toNat (Char.ofNat 0)

def unicodeToByte (ch : Char) : Option UInt8 :=
  (bytesToUnicodeMap.findIdx? fun entry => entry = ch).map UInt8.ofNat

def bytesToUnicodeString (text : List Char) : List Char := (Utf8.encode text).map byteToUnicode

end Pictor.ByteLevel

namespace Pictor

/-- The pairs with the ids of their products, and the pairs in the order of their priority. -/
structure BpeMerges where
  merges : AList fun _ : List Char × List Char => UInt32
  mergeOrder : List (List Char × List Char)

namespace BpeMerges

def new : BpeMerges := ⟨∅, []⟩

/-- A pair that exists keeps its place in the order. -/
def addMerge (table : BpeMerges) (a b : List Char) (resultId : UInt32) : BpeMerges :=
  { merges := table.merges.insert (a, b) resultId
    mergeOrder := if (a, b) ∈ table.merges then table.mergeOrder else table.mergeOrder ++ [(a, b)] }

def getMergePriority (table : BpeMerges) (a b : List Char) : Option Nat :=
  if (a, b) ∈ table.merges then table.mergeOrder.findIdx? fun pair => pair = (a, b) else none

def getMergeResult (table : BpeMerges) (a b : List Char) : Option UInt32 := table.merges.lookup (a, b)

end BpeMerges

namespace Bpe

/-- The prefix that stands for a space. -/
def spacePrefix : Char := Char.ofNat 0x120

/-- The words so far, the current word, and whether the last character was a space. -/
structure Pretokenizer where
  tokens : List (List Char)
  current : List Char
  lastWasSpace : Bool

def Pretokenizer.flush (state : Pretokenizer) : Pretokenizer :=
  if state.current = [] then state
  else { state with tokens := state.tokens ++ [state.current], current := [] }

def Pretokenizer.step (state : Pretokenizer) (ch : Char) : Pretokenizer :=
  if isWhitespace ch then { state.flush with lastWasSpace := true }
  else if isAsciiPunctuation ch then
    let state := state.flush
    { state with
      tokens := state.tokens ++ [if state.lastWasSpace then [spacePrefix, ch] else [ch]]
      lastWasSpace := false }
  else
    let state := if state.lastWasSpace then state.flush else state
    let current := if state.lastWasSpace && state.current.isEmpty then [spacePrefix] else state.current
    { state with current := current ++ [ch], lastWasSpace := false }

def pretokenize (text : List Char) : List (List Char) :=
  (text.foldl Pretokenizer.step ⟨[], [], false⟩).flush.tokens

/-- The place of the pair with the best priority. The first one wins a tie. -/
def bestMerge (merges : BpeMerges) (symbols : List (List Char)) : Option Nat :=
  (((symbols.zip symbols.tail).zipIdx.filterMap fun entry =>
    (merges.getMergePriority entry.1.1 entry.1.2).map fun priority => (priority, entry.2)).argmin
      Prod.fst).map Prod.snd

/-- The symbols at a place and after it become one. -/
def mergeAt (symbols : List (List Char)) (pos : Nat) : List (List Char) :=
  (symbols.set pos (symbols.getD pos [] ++ symbols.getD (pos + 1) [])).eraseIdx (pos + 1)

/-- The loop over the merges. Each merge removes one symbol, so their number bounds it. -/
def mergeLoop (merges : BpeMerges) : Nat → List (List Char) → List (List Char)
  | 0, symbols => symbols
  | bound + 1, symbols =>
      if symbols.length < 2 then symbols
      else
        match bestMerge merges symbols with
        | none => symbols
        | some pos => mergeLoop merges bound (mergeAt symbols pos)

/-- The name of a byte is `<0xHH>`. -/
def byteFallbackId (byte : UInt8) : List Char :=
  ['<', '0', 'x', hexDigit (byte.toNat / 16), hexDigit (byte.toNat % 16), '>']

def symbolToIds (sym : List Char) (vocab : Vocabulary) : List UInt32 :=
  match vocab.getId sym with
  | some id => [id]
  | none => (Utf8.encode sym).filterMap fun byte => vocab.getId (byteFallbackId byte)

def bpeEncode (word : List Char) (vocab : Vocabulary) (merges : BpeMerges) : List UInt32 :=
  let symbols := word.map fun ch => [ch]
  (mergeLoop merges symbols.length symbols).flatMap fun sym => symbolToIds sym vocab

end Bpe

end Pictor
