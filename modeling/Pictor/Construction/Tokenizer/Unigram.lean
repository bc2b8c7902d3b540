import Pictor.Construction.Tokenizer.Trainer
import Pictor.Library.BestPath

namespace Pictor
open BestPath

inductive UnigramError where
  | emptyVocab
  | unkOutOfRange (unkId : UInt32) (vocabLen : Nat)
  | duplicateToken (token : List UInt8)
  deriving DecidableEq

/-- A token is the bytes of its text. -/
structure UnigramVocab where
  entries : List (List UInt8 × ℚ)
  tokenToId : AList fun _ : List UInt8 => UInt32
  tokenScores : List ℚ
  unkId : UInt32
  maxTokenByteLen : Nat

/-- A byte is the first one of a character. -/
def isUtf8CharBoundary (byte : UInt8) : Bool := byte < 128 || 192 ≤ byte

/-- A position is in front of a character or at the end. -/
def isCharBoundary (text : List UInt8) (index : Nat) : Bool :=
  index = 0 || match text[index]? with
    | some byte => isUtf8CharBoundary byte
    | none => index = text.length

namespace UnigramVocab

/-- The maps of the entries. The id of a token is its index, and an index outside 32 bits wraps. -/
def insertEntries : Nat → List (List UInt8 × ℚ) → UnigramVocab → Except UnigramError UnigramVocab
  | _, [], vocab => .ok vocab
  | idx, (token, score) :: entries, vocab =>
      if token ∈ vocab.tokenToId then .error (.duplicateToken token)
      else
        insertEntries (idx + 1) entries
          { vocab with
            tokenToId := vocab.tokenToId.insert token (UInt32.ofNat idx)
            tokenScores := vocab.tokenScores ++ [score]
            maxTokenByteLen := if vocab.maxTokenByteLen < token.length then token.length else vocab.maxTokenByteLen }

def new (entries : List (List UInt8 × ℚ)) (unkId : UInt32) : Except UnigramError UnigramVocab :=
  if entries = [] then .error .emptyVocab
  else if entries.length ≤ unkId.toNat then .error (.unkOutOfRange unkId entries.length)
  else insertEntries 0 entries ⟨entries, ∅, [], unkId, 1⟩

def unkPenalty : ℚ := -1000000

/-- The score at an id. The source indexes only with ids of the vocabulary. -/
def scoreOf (vocab : UnigramVocab) (id : UInt32) : ℚ := vocab.tokenScores.getD id.toNat 0

/-- The unknown token consumes one byte. -/
def unkEdge (vocab : UnigramVocab) : Edge UInt32 ℚ := ⟨vocab.unkId, 1, unkPenalty⟩

/-- The token of the bytes behind a position. -/
def tokenEdge? (vocab : UnigramVocab) (text : List UInt8) (i len : Nat) : Option (Edge UInt32 ℚ) :=
  if isCharBoundary text (i + len) then
    (vocab.tokenToId.lookup ((text.drop i).take len)).map fun tokId => ⟨tokId, len, vocab.scoreOf tokId⟩
  else none

/-- One length of the inner loop. The flag says that a token has improved its end. -/
def tryToken (vocab : UnigramVocab) (text : List UInt8) (i : Nat) (here : ℚ) (state : Bool × Table UInt32 ℚ)
    (len : Nat) : Bool × Table UInt32 ℚ :=
  match vocab.tokenEdge? text i len with
  | some edge =>
      (state.1 || state.2.improves (i + edge.length) (here + edge.weight), state.2.offer i here edge)
  | none => state

/-- One position of the forward pass. -/
def advance (vocab : UnigramVocab) (text : List UInt8) (table : Table UInt32 ℚ) (i : Nat) : Table UInt32 ℚ :=
  match table.scoreAt i with
  | none => table
  | some here =>
      if isCharBoundary text i then
        let (foundAny, table) := (List.range' 1 (min vocab.maxTokenByteLen (text.length - i))).foldl
          (vocab.tryToken text i here) (false, table)
        if !foundAny || (table.scoreAt (i + 1)).isNone then table.offer i here vocab.unkEdge else table
      else table.offer i here vocab.unkEdge

def encode (vocab : UnigramVocab) (text : List UInt8) : List UInt32 :=
  if text.length = 0 then []
  else
    let table := (List.range text.length).foldl (vocab.advance text) (Table.start text.length)
    table.backtrack text.length text.length []

end UnigramVocab

end Pictor

namespace Pictor

/-- The mark of a piece that does not start a word. -/
def wordpieceContinuationPrefix : List Char := ['#', '#']

inductive WordPieceError where
  | emptyVocab
  | unkOutOfRange (unkId : UInt32) (vocabLen : Nat)
  | duplicateToken (token : List Char)
  deriving DecidableEq

structure WordPieceVocab where
  tokenToId : AList fun _ : List Char => UInt32
  idToToken : List (List Char)
  unkId : UInt32
  maxInputCharsPerWord : Nat

namespace WordPieceVocab

/-- The id of a token is its index. An index outside 32 bits wraps. -/
def insertTokens : Nat → List (List Char) → (AList fun _ : List Char => UInt32) →
    Except WordPieceError (AList fun _ : List Char => UInt32)
  | _, [], tokenToId => .ok tokenToId
  | i, token :: tokens, tokenToId =>
      if token ∈ tokenToId then .error (.duplicateToken token)
      else insertTokens (i + 1) tokens (tokenToId.insert token (UInt32.ofNat i))

def new (tokens : List (List Char)) (unkId : UInt32) : Except WordPieceError WordPieceVocab := do
  if tokens = [] then throw .emptyVocab
  else if tokens.length ≤ unkId.toNat then throw (.unkOutOfRange unkId tokens.length)
  else
    let tokenToId ← insertTokens 0 tokens ∅
    pure ⟨tokenToId, tokens, unkId, 100⟩

def withMaxInputChars (vocab : WordPieceVocab) (max : Nat) : WordPieceVocab :=
  { vocab with maxInputCharsPerWord := max }

/-- The characters from a start to an end, with the mark of a continuation behind the first start. -/
def candidate (word : List Char) (startChar endChar : Nat) : List Char :=
  (if startChar = 0 then [] else wordpieceContinuationPrefix) ++ (word.drop startChar).take (endChar - startChar)

/-- The ends are tried from the last one down. -/
def longestMatch (vocab : WordPieceVocab) (word : List Char) (startChar : Nat) : Nat → Option (UInt32 × Nat)
  | 0 => none
  | endChar + 1 =>
      match vocab.tokenToId.lookup (candidate word startChar (endChar + 1)) with
      | some id => some (id, endChar + 1)
      | none => if endChar = startChar then none else longestMatch vocab word startChar endChar

/-- The loop over the starts of the pieces. No result means that the word is bad. -/
def piecesFrom (vocab : WordPieceVocab) (word : List Char) : Nat → Nat → List UInt32 → Option (List UInt32)
  | 0, _, out => some out
  | count + 1, startChar, out =>
      if startChar < word.length then
        match longestMatch vocab word startChar word.length with
        | some (id, endChar) => piecesFrom vocab word count endChar (out ++ [id])
        | none => none
      else some out

/-- A bad word leaves one unknown token. -/
def tokenizeWordInto (vocab : WordPieceVocab) (out : List UInt32) (word : List Char) : List UInt32 :=
  if vocab.maxInputCharsPerWord < word.length then out ++ [vocab.unkId]
  else (piecesFrom vocab word word.length 0 out).getD (out ++ [vocab.unkId])

def encode (vocab : WordPieceVocab) (text : List Char) : List UInt32 :=
  (splitWhitespace text).foldl vocab.tokenizeWordInto []

def decodeToken (vocab : WordPieceVocab) (id : UInt32) : Option (List Char) := vocab.idToToken[id.toNat]?

/-- A token with the mark continues the text, and another token starts a word. -/
def pushToken (result token : List Char) : List Char :=
  match wordpieceContinuationPrefix.isPrefixOf? token with
  | some cont => result ++ cont
  | none => (if result = [] then result else result ++ [' ']) ++ token

def decode (vocab : WordPieceVocab) (ids : List UInt32) : List Char :=
  ids.foldl (fun result id =>
    match vocab.decodeToken id with
    | some token => pushToken result token
    | none => result) []

end WordPieceVocab

end Pictor
