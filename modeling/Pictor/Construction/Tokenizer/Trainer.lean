import Pictor.Construction.Tokenizer.Tokenizer
import Pictor.Library.HashOrder
import Pictor.Library.InsertAll
import Pictor.Library.PairMerge

namespace Pictor
open InsertAll

structure TrainerConfig where
  vocabSize : Nat
  minFrequency : Nat
  addSpecialTokens : Bool
  byteLevel : Bool

structure SymbolPair where
  left : UInt32
  right : UInt32
  deriving DecidableEq

structure MergeRule where
  left : UInt32
  right : UInt32
  merged : UInt32
  mergedText : List Char

namespace SymbolPair

def mergedSymbol (pair : SymbolPair) (newId : UInt32) (mergedText : List Char) : MergeRule :=
  ⟨pair.left, pair.right, newId, mergedText⟩

/-- The pair joins into the new symbol. -/
def join (pair : SymbolPair) (newId : UInt32) (first second : UInt32) : Option UInt32 :=
  if first = pair.left ∧ second = pair.right then some newId else none

end SymbolPair

structure Word where
  symbols : List UInt32
  freq : Nat

structure TrainingStats where
  initialVocabSize : Nat
  finalVocabSize : Nat
  numMergesPerformed : Nat
  numMergesSkipped : Nat
  corpusSizeChars : Nat
  uniqueWords : Nat

structure TrainedTokenizer where
  vocab : AList fun _ : UInt32 => List Char
  merges : List MergeRule
  stats : TrainingStats

/-- The entries of a map, which a hashed map gives in any order. -/
def mapEntries {Key Value : Type} [DecidableEq Key] [DecidableEq Value] (map : AList fun _ : Key => Value) :
    Finset (Key × Value) :=
  (map.entries.map fun entry => (entry.1, entry.2)).toFinset

namespace TrainedTokenizer

/-- A token that is missing is empty. -/
def token (trained : TrainedTokenizer) (id : UInt32) : List Char := (trained.vocab.lookup id).getD []

/-- A token in angle brackets is a special token. -/
def toPictorTokenizer (order : HashOrder (UInt32 × List Char)) (trained : TrainedTokenizer) : PictorTokenizer :=
  let vocabulary := (order.iterate 0 (mapEntries trained.vocab)).foldl (fun vocabulary (id, token) =>
    if token.head? = some '<' ∧ token.getLast? = some '>' then vocabulary.addSpecial token id
    else vocabulary.insert token id) Vocabulary.new
  let bpeMerges := trained.merges.foldl (fun table rule =>
    table.addMerge (trained.token rule.left) (trained.token rule.right) rule.merged) BpeMerges.new
  .new vocabulary bpeMerges .default

end TrainedTokenizer

inductive TrainerError where
  | emptyCorpus
  | vocabSizeTooSmall (vocabSize : Nat)
  | noValidWords
  deriving DecidableEq

/-- The training fails with an error, or with a panic when the ids run out. -/
inductive TrainerFailure where
  | error (error : TrainerError)
  | panic
  deriving DecidableEq

/-- The parts between whitespace that are not empty. -/
def splitWhitespace (text : List Char) : List (List Char) :=
  (text.splitOnP isWhitespace).filter (· ≠ [])

/-- The last one of the greatest items. -/
def maxBy {Item : Type} (compare : Item → Item → Ordering) : List Item → Option Item
  | [] => none
  | first :: rest => some (rest.foldl (fun best next => if compare best next = .gt then best else next) first)

/-- A byte is printable ASCII. -/
def isPrintable (byte : UInt8) : Bool := 0x20 ≤ byte && byte ≤ 0x7E

def byteTokenString (byte : UInt8) : List Char :=
  if isPrintable byte then [Char.ofNat byte.toNat] else Bpe.byteFallbackId byte

namespace BpeTrainer

/-- The orders in which the hashed maps of a training give their entries. -/
structure Orders where
  words : HashOrder (List Char × Nat)
  pairs : HashOrder (SymbolPair × Nat)

/-- The ids of the bytes stand behind the special tokens. -/
def byteIdOffset (config : TrainerConfig) : UInt32 := if config.addSpecialTokens then 4 else 0

def byteId (config : TrainerConfig) (byte : UInt8) : UInt32 := byte.toUInt32 + byteIdOffset config

def allBytes : List UInt8 := (List.range 256).map UInt8.ofNat

def charVocab (config : TrainerConfig) : AList fun _ : UInt8 => UInt32 :=
  insertAll (allBytes.map fun byte => (byte, byteId config byte)) ∅

def specialTokens (config : TrainerConfig) : List (UInt32 × List Char) :=
  if config.addSpecialTokens then
    [(0, "<unk>".toList), (1, "<bos>".toList), (2, "<eos>".toList), (3, "<pad>".toList)]
  else []

def initialTokens (config : TrainerConfig) : AList fun _ : UInt32 => List Char :=
  insertAll (specialTokens config ++ allBytes.map fun byte => (byteId config byte, byteTokenString byte)) ∅

/-- The units of a document that are counted. -/
def units (config : TrainerConfig) (doc : List Char) : List (List Char) :=
  if config.byteLevel then splitWhitespace doc
  else if doc = [] then [] else [doc]

def pretokenize (config : TrainerConfig) (corpus : List (List Char)) : AList fun _ : List Char => Nat :=
  corpus.foldl (fun freqs doc => (units config doc).foldl (fun freqs word =>
    freqs.insert word ((freqs.lookup word).getD 0 + 1)) freqs) ∅

def encodeWord (config : TrainerConfig) (word : List Char) : List UInt32 :=
  (Utf8.encode word).filterMap fun byte => (charVocab config).lookup byte

/-- Each pair counts as often as its word occurs. -/
def countPairs (words : List Word) : AList fun _ : SymbolPair => Nat :=
  words.foldl (fun counts word =>
    if word.symbols.length < 2 then counts
    else (word.symbols.zip word.symbols.tail).foldl (fun counts (left, right) =>
      counts.insert ⟨left, right⟩ ((counts.lookup ⟨left, right⟩).getD 0 + word.freq)) counts) ∅

/-- The higher count wins, then the lower left id, then the lower right id. -/
def comparePairs (first second : SymbolPair × Nat) : Ordering :=
  (compare first.2 second.2).then ((compare second.1.left first.1.left).then
    (compare second.1.right first.1.right))

def bestPair (order : HashOrder (SymbolPair × Nat)) (moment : Nat) (config : TrainerConfig)
    (pairCounts : AList fun _ : SymbolPair => Nat) : Option (SymbolPair × Nat) :=
  maxBy comparePairs ((order.iterate moment (mapEntries pairCounts)).filter fun entry =>
    config.minFrequency ≤ entry.2)

def applyMerge (words : List Word) (pair : SymbolPair) (newId : UInt32) : List Word :=
  words.map fun word =>
    if word.symbols.length < 2 then word
    else { word with symbols := PairMerge.scan (pair.join newId) word.symbols }

structure TrainingState where
  idToToken : AList fun _ : UInt32 => List Char
  nextId : UInt32
  words : List Word
  mergeRules : List MergeRule
  numMergesSkipped : Nat

/-- The merge of the best pair. The next id is checked for an overflow. -/
def mergePair (state : TrainingState) (pair : SymbolPair) : Except TrainerFailure TrainingState :=
  let leftStr := (state.idToToken.lookup pair.left).getD []
  let rightStr := (state.idToToken.lookup pair.right).getD []
  let mergedText := leftStr ++ rightStr
  let newId := state.nextId
  if newId.toNat + 1 = 2 ^ 32 then .error .panic
  else .ok { state with
    nextId := newId + 1
    idToToken := state.idToToken.insert newId mergedText
    mergeRules := state.mergeRules ++ [pair.mergedSymbol newId mergedText]
    words := applyMerge state.words pair newId }

/-- The loop over the merges that are left. -/
def trainLoop (order : HashOrder (SymbolPair × Nat)) (config : TrainerConfig) :
    Nat → TrainingState → Except TrainerFailure TrainingState
  | 0, state => .ok state
  | remaining + 1, state =>
      let pairCounts := countPairs state.words
      if pairCounts.entries = [] then .ok state
      else
        match bestPair order state.mergeRules.length config pairCounts with
        | none => .ok { state with numMergesSkipped := state.numMergesSkipped + (remaining + 1) }
        | some (pair, _) => do
            let state ← mergePair state pair
            trainLoop order config remaining state

/-- The words of a training with their counts, and the state that the loop leaves. -/
structure TrainingRun where
  wordFreqs : List (List Char × Nat)
  state : TrainingState

def run (orders : Orders) (config : TrainerConfig) (corpus : List (List Char)) :
    Except TrainerFailure TrainingRun :=
  if corpus = [] then .error (.error .emptyCorpus)
  else
    let minSize := if config.addSpecialTokens then 256 + 4 else 256
    if config.vocabSize ≤ minSize - 1 then .error (.error (.vocabSizeTooSmall config.vocabSize))
    else
      let wordFreqs := orders.words.iterate 0 (mapEntries (pretokenize config corpus))
      if wordFreqs = [] then .error (.error .noValidWords)
      else do
        let words := wordFreqs.map fun (text, freq) => ⟨encodeWord config text, freq⟩
        let nextId := 256 + byteIdOffset config
        let state ← trainLoop orders.pairs config (config.vocabSize - nextId.toNat)
          ⟨initialTokens config, nextId, words, [], 0⟩
        return ⟨wordFreqs, state⟩

def TrainingRun.trained (run : TrainingRun) (config : TrainerConfig) (corpus : List (List Char)) : TrainedTokenizer where
  vocab := run.state.idToToken
  merges := run.state.mergeRules
  stats :=
    { initialVocabSize := (initialTokens config).entries.length
      finalVocabSize := run.state.idToToken.entries.length
      numMergesPerformed := run.state.mergeRules.length
      numMergesSkipped := run.state.numMergesSkipped
      corpusSizeChars := (corpus.map fun doc => (Utf8.encode doc).length).sum
      uniqueWords := run.wordFreqs.length }

def train (orders : Orders) (config : TrainerConfig) (corpus : List (List Char)) :
    Except TrainerFailure TrainedTokenizer :=
  (run orders config corpus).map fun run => run.trained config corpus

end BpeTrainer

end Pictor
