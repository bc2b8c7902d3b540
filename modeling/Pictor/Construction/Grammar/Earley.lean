import Pictor.Construction.Grammar.Ast
import Pictor.Library.HashOrder
import Pictor.Library.Worklist

namespace Pictor

/-- An item is a rule with a dot in its right-hand side and the position where it started. -/
structure EarleyItem where
  rule : RuleId
  dot : Nat
  origin : Nat
  deriving DecidableEq, Repr

/-- The dot moves past one symbol. -/
def EarleyItem.advanced (item : EarleyItem) : EarleyItem :=
  { item with dot := item.dot + 1 }

@[simp] theorem EarleyItem.advanced_rule (item : EarleyItem) : item.advanced.rule = item.rule := rfl

@[simp] theorem EarleyItem.advanced_origin (item : EarleyItem) : item.advanced.origin = item.origin := rfl

@[simp] theorem EarleyItem.advanced_dot (item : EarleyItem) : item.advanced.dot = item.dot + 1 := rfl

/-- The symbol after the dot. A complete item has none. -/
def Grammar.nextSymbol (grammar : Grammar) (item : EarleyItem) : Option Symbol :=
  (grammar.ruleAt item.rule).rhs[item.dot]?

/-- The FIRST set and the nullable flag of each non-terminal below the count. -/
structure FirstSets where
  first : List (Finset UInt8)
  nullable : List Bool
  deriving DecidableEq

namespace FirstSets

/-- An identifier without an entry has an empty FIRST set. -/
def firstOf (sets : FirstSets) (nt : NonTerminalId) : Finset UInt8 :=
  sets.first.getD nt ∅

def isNullable (sets : FirstSets) (nt : NonTerminalId) : Bool :=
  sets.nullable.getD nt false

def addFirst (sets : FirstSets) (nt : NonTerminalId) (bytes : Finset UInt8) : FirstSets :=
  { sets with first := sets.first.modify nt (· ∪ bytes) }

def setNullable (sets : FirstSets) (nt : NonTerminalId) : FirstSets :=
  { sets with nullable := sets.nullable.set nt true }

/-- The scan of a right-hand side stops at the first symbol that is not nullable. The flag says
whether every symbol was nullable. -/
def scanRhs (lhs : NonTerminalId) : List Symbol → FirstSets → FirstSets × Bool
  | [], sets => (sets, true)
  | .terminal [] :: rest, sets => scanRhs lhs rest sets
  | .terminal (byte :: _) :: _, sets => (sets.addFirst lhs {byte}, false)
  | .nonTerminal nt :: rest, sets =>
      let sets := sets.addFirst lhs (sets.firstOf nt)
      if sets.isNullable nt then scanRhs lhs rest sets else (sets, false)

def scanRule (rule : Rule) (sets : FirstSets) : FirstSets :=
  if rule.rhs = [] then sets.setNullable rule.lhs
  else
    let scanned := scanRhs rule.lhs rule.rhs sets
    if scanned.2 then scanned.1.setNullable rule.lhs else scanned.1

/-- One round visits every rule in order. -/
def pass (grammar : Grammar) (sets : FirstSets) : FirstSets :=
  grammar.rules.foldl (fun sets rule => scanRule rule sets) sets

/-- The loop stops at the first round that changes nothing. -/
def iterate (grammar : Grammar) : Nat → FirstSets → FirstSets
  | 0, sets => sets
  | fuel + 1, sets =>
      let next := pass grammar sets
      if next = sets then sets else iterate grammar fuel next

def initial (count : Nat) : FirstSets :=
  ⟨List.replicate count ∅, List.replicate count false⟩

/-- Each round that changes something adds a byte or a flag, and there are 257 of them for each
non-terminal. -/
def compute (grammar : Grammar) : FirstSets :=
  iterate grammar (257 * grammar.ntCount + 1) (initial grammar.ntCount)

end FirstSets

/-- The map from a non-terminal to the identifiers of its rules in order. -/
def buildRuleIndex (grammar : Grammar) (nt : NonTerminalId) : List RuleId :=
  (List.range grammar.rules.length).filter fun id => (grammar.ruleAt id).lhs = nt

/-- The recognizer state. The moment counts the set iterations, so that each may have its own
order. -/
structure EarleyRecognizer where
  grammar : Grammar
  firstSets : FirstSets
  chart : List (Finset EarleyItem)
  inputPos : Nat
  ruleIndex : NonTerminalId → List RuleId
  moment : Nat

namespace EarleyRecognizer

/-- The set at one position of a chart. -/
def itemsAt (chart : List (Finset EarleyItem)) (position : Nat) : Finset EarleyItem :=
  chart.getD position ∅

/-- The advance of an item whose dot is before the completed non-terminal. -/
def advancedOver (grammar : Grammar) (completed : NonTerminalId) (item : EarleyItem) :
    Option EarleyItem :=
  if grammar.nextSymbol item = some (.nonTerminal completed) then some item.advanced else none

/-- The items that one popped item adds to the set at position `k`. The set `current` is the
content of that position, and an item with origin `k` reads it as it is at this moment. -/
def candidates (order : HashOrder EarleyItem) (grammar : Grammar)
    (ruleIndex : NonTerminalId → List RuleId) (chart : List (Finset EarleyItem)) (k : Nat)
    (moment : Nat) (current : Finset EarleyItem) (item : EarleyItem) : List EarleyItem :=
  match grammar.nextSymbol item with
  | none =>
      let originItems := if item.origin = k then current else itemsAt chart item.origin
      (order.iterate moment originItems).filterMap
        (advancedOver grammar (grammar.ruleAt item.rule).lhs)
  | some (.nonTerminal nt) => (ruleIndex nt).map fun rule => ⟨rule, 0, k⟩
  | some (.terminal bytes) => if bytes = [] then [item.advanced] else []

/-- The greatest length of a right-hand side. -/
def maxRhs (grammar : Grammar) : Nat :=
  (grammar.rules.map fun rule => rule.rhs.length).foldr max 0

/-- The number of items that can occur up to position `k`. The closure pops each at most once. -/
def itemCount (grammar : Grammar) (k : Nat) : Nat :=
  grammar.rules.length * (maxRhs grammar + 1) * (k + 1)

/-- The Predict and Complete closure of the set at position `k`. -/
def closure (order : HashOrder EarleyItem) (state : EarleyRecognizer) (k : Nat) :
    EarleyRecognizer :=
  let seeds := itemsAt state.chart k
  let closed := Worklist.close
    (candidates order state.grammar state.ruleIndex state.chart k)
    (itemCount state.grammar k) (state.moment + 1) seeds (order.iterate state.moment seeds)
  { state with chart := state.chart.set k closed.1, moment := closed.2 }

/-- The first set holds the start items and their closure. -/
def initChartZero (order : HashOrder EarleyItem) (state : EarleyRecognizer) : EarleyRecognizer :=
  let items := (state.ruleIndex state.grammar.start).map fun rule => (⟨rule, 0, 0⟩ : EarleyItem)
  closure order { state with chart := state.chart.modify 0 (· ∪ items.toFinset) } 0

def new (order : HashOrder EarleyItem) (grammar : Grammar) : EarleyRecognizer :=
  initChartZero order {
    grammar
    firstSets := FirstSets.compute grammar
    chart := [∅]
    inputPos := 0
    ruleIndex := buildRuleIndex grammar
    moment := 0 }

/-- An item scans a byte when its next symbol is the terminal of this byte. -/
def scans (grammar : Grammar) (byte : UInt8) (item : EarleyItem) : Prop :=
  grammar.nextSymbol item = some (.terminal [byte])

instance (grammar : Grammar) (byte : UInt8) (item : EarleyItem) :
    Decidable (scans grammar byte item) := inferInstanceAs (Decidable (_ = _))

/-- The current set. -/
def current (state : EarleyRecognizer) : Finset EarleyItem := itemsAt state.chart state.inputPos

/-- The items that survive one byte. -/
def scanned (state : EarleyRecognizer) (byte : UInt8) : Finset EarleyItem :=
  (state.current.filter (scans state.grammar byte)).image EarleyItem.advanced

/-- One input byte. A byte that no item scans leaves an empty set behind. -/
def feedByte (order : HashOrder EarleyItem) (state : EarleyRecognizer) (byte : UInt8) :
    EarleyRecognizer × Bool :=
  let nextSet := state.scanned byte
  let pushed := { state with chart := state.chart ++ [nextSet], inputPos := state.inputPos + 1 }
  if nextSet = ∅ then (pushed, false)
  else (closure order pushed pushed.inputPos, true)

/-- An accepting state has a complete start item from position zero. -/
def isAccepting (state : EarleyRecognizer) : Bool :=
  decide (∃ item ∈ state.current,
    (state.grammar.ruleAt item.rule).lhs = state.grammar.start ∧ item.origin = 0 ∧
      item.dot = (state.grammar.ruleAt item.rule).rhs.length)

def isLive (state : EarleyRecognizer) : Bool := decide (state.current ≠ ∅)

/-- The bytes that one item allows next. -/
def nextBytesOf (state : EarleyRecognizer) (item : EarleyItem) : Finset UInt8 :=
  match state.grammar.nextSymbol item with
  | some (.terminal [byte]) => {byte}
  | some (.nonTerminal nt) => state.firstSets.firstOf nt
  | _ => ∅

def nextByteSet (state : EarleyRecognizer) : Finset UInt8 :=
  state.current.biUnion state.nextBytesOf

def reset (order : HashOrder EarleyItem) (state : EarleyRecognizer) : EarleyRecognizer :=
  initChartZero order { state with chart := [∅], inputPos := 0 }

/-- The bytes of a slice are fed until one is rejected. -/
def feedBytes (order : HashOrder EarleyItem) : EarleyRecognizer → List UInt8 →
    EarleyRecognizer × Bool
  | state, [] => (state, true)
  | state, byte :: rest =>
      let fed := feedByte order state byte
      if fed.2 then feedBytes order fed.1 rest else (fed.1, false)

/-- Every byte of a word is fed, also after a rejection. -/
def feedAll (order : HashOrder EarleyItem) (state : EarleyRecognizer) (word : List UInt8) :
    EarleyRecognizer :=
  word.foldl (fun state byte => (feedByte order state byte).1) state

/-- The recognizer after a whole word. -/
def recognize (order : HashOrder EarleyItem) (grammar : Grammar) (word : List UInt8) :
    EarleyRecognizer :=
  feedAll order (new order grammar) word

end EarleyRecognizer

end Pictor

namespace Pictor

/-- The cache maps a state hash to a mask. The front of the order list is used least recently. -/
structure AllowedTokensCache where
  capacity : Nat
  inner : List (UInt64 × List Bool)
  lru : List UInt64
  hits : Nat
  misses : Nat

namespace AllowedTokensCache

def withCapacity (capacity : Nat) : AllowedTokensCache := ⟨max capacity 1, [], [], 0, 0⟩

/-- A hit moves the key to the back of the order list. -/
def get (cache : AllowedTokensCache) (stateHash : UInt64) : Option (List Bool) × AllowedTokensCache :=
  match cache.inner.lookup stateHash with
  | some mask =>
      (some mask, { cache with lru := cache.lru.erase stateHash ++ [stateHash], hits := cache.hits + 1 })
  | none => (none, { cache with misses := cache.misses + 1 })

/-- A full cache drops the front of its order list. -/
def evict (cache : AllowedTokensCache) : AllowedTokensCache :=
  if cache.capacity ≤ cache.inner.length then
    match cache.lru with
    | [] => cache
    | oldest :: lru =>
        { cache with lru, inner := cache.inner.filter fun entry => entry.1 != oldest }
  else cache

/-- A present key keeps its mask. -/
def insert (cache : AllowedTokensCache) (stateHash : UInt64) (mask : List Bool) : AllowedTokensCache :=
  if (cache.inner.lookup stateHash).isSome then cache
  else
    let cache := cache.evict
    { cache with inner := (stateHash, mask) :: cache.inner, lru := cache.lru ++ [stateHash] }

end AllowedTokensCache

/-- The triple that the state hash reads from an item. -/
def EarleyItem.triple (item : EarleyItem) : Nat × Nat × Nat := (item.rule, item.dot, item.origin)

/-- The lexicographic order of the triples. -/
def tripleLe (first second : Nat × Nat × Nat) : Prop :=
  first.1 < second.1 ∨ (first.1 = second.1 ∧
    (first.2.1 < second.2.1 ∨ (first.2.1 = second.2.1 ∧ first.2.2 ≤ second.2.2)))

instance : DecidableRel tripleLe := fun _ _ => inferInstanceAs (Decidable (_ ∨ _))

instance : IsTrans (Nat × Nat × Nat) tripleLe := ⟨fun _ _ _ lower upper => by
  unfold tripleLe at *
  omega⟩

instance : Std.Total tripleLe := ⟨fun _ _ => by
  unfold tripleLe
  omega⟩

instance : Std.Antisymm tripleLe := ⟨fun first second lower upper => by
  unfold tripleLe at *
  refine Prod.ext ?_ (Prod.ext ?_ ?_) <;> omega⟩

/-- The sorted triples of a set of items. -/
def sortedItems (items : Finset EarleyItem) : List (Nat × Nat × Nat) :=
  Quot.liftOn items.val (fun items => (items.map EarleyItem.triple).insertionSort tripleLe)
    fun _ _ same => List.Perm.eq_of_pairwise'
      (List.pairwise_insertionSort tripleLe _) (List.pairwise_insertionSort tripleLe _)
      ((List.perm_insertionSort tripleLe _).trans
        ((same.map EarleyItem.triple).trans (List.perm_insertionSort tripleLe _).symm))

/-- The hasher of the standard library maps the sorted triples and the position to 64 bits. -/
abbrev StateHasher := List (Nat × Nat × Nat) → Nat → UInt64

/-- The pair that the state hash covers. -/
def EarleyRecognizer.stateKey (state : EarleyRecognizer) : List (Nat × Nat × Nat) × Nat :=
  (sortedItems state.current, state.inputPos)

def EarleyRecognizer.stateHash (hasher : StateHasher) (state : EarleyRecognizer) : UInt64 :=
  hasher state.stateKey.1 state.stateKey.2

/-- The constraint state with the precomputed token index. -/
structure GrammarConstraint where
  recognizer : EarleyRecognizer
  vocabSize : Nat
  cache : AllowedTokensCache
  tokenBytes : List (List UInt8)
  firstByteIndex : UInt8 → List Nat
  emptyTokenIds : List Nat

namespace GrammarConstraint

/-- The index covers the identifiers below the vocabulary size as a 32-bit integer. -/
def withCacheCapacity (order : HashOrder EarleyItem) (grammar : Grammar) (decode : Nat → List UInt8)
    (vocabSize capacity : Nat) : GrammarConstraint :=
  let ids := List.range (vocabSize % 2 ^ 32)
  { recognizer := .new order grammar.normaliseTerminals
    vocabSize
    cache := .withCapacity capacity
    tokenBytes := ids.map decode
    firstByteIndex := fun byte => ids.filter fun id => (decode id).head? = some byte
    emptyTokenIds := ids.filter fun id => decode id = [] }

def new (order : HashOrder EarleyItem) (grammar : Grammar) (decode : Nat → List UInt8)
    (vocabSize : Nat) : GrammarConstraint :=
  withCacheCapacity order grammar decode vocabSize 256

/-- The probe of one token marks it when a clone of the recognizer accepts all its bytes. The moment
passes through the clone. -/
def probeToken (order : HashOrder EarleyItem) (constraint : GrammarConstraint) (vocabSize : Nat)
    (accepting : Bool) (marked : List Bool × Nat) (id : Nat) : List Bool × Nat :=
  if vocabSize ≤ id then marked
  else
    let bytes := constraint.tokenBytes.getD id []
    if bytes = [] then (if accepting then marked.1.set id true else marked.1, marked.2)
    else
      let probe := EarleyRecognizer.feedBytes order { constraint.recognizer with moment := marked.2 } bytes
      (if probe.2 then marked.1.set id true else marked.1, probe.1.moment)

/-- The mask that a cache miss computes, with the moment after the last probe. -/
def computeMask (order : HashOrder EarleyItem) (byteOrder : HashOrder UInt8)
    (constraint : GrammarConstraint) (vocabSize : Nat) : List Bool × Nat :=
  let nbs := constraint.recognizer.nextByteSet
  let accepting := constraint.recognizer.isAccepting
  let blank := List.replicate vocabSize false
  let mask := if accepting then
      constraint.emptyTokenIds.foldl (fun mask id => if id < vocabSize then mask.set id true else mask)
        blank
    else blank
  let ids := (byteOrder.iterate constraint.recognizer.moment nbs).flatMap constraint.firstByteIndex
  ids.foldl (probeToken order constraint vocabSize accepting) (mask, constraint.recognizer.moment)

/-- A dead state and a state without a next byte give an empty mask without a cache access. -/
def allowedTokens (order : HashOrder EarleyItem) (byteOrder : HashOrder UInt8) (hasher : StateHasher)
    (constraint : GrammarConstraint) (vocabSize : Nat) : Option (List Bool) × GrammarConstraint :=
  if constraint.recognizer.isLive = false then (some (List.replicate vocabSize false), constraint)
  else if constraint.recognizer.nextByteSet = ∅ ∧ constraint.recognizer.isAccepting = false then
    (some (List.replicate vocabSize false), constraint)
  else
    let stateHash := constraint.recognizer.stateHash hasher
    let found := constraint.cache.get stateHash
    match found.1 with
    | some cached => (some cached, { constraint with cache := found.2 })
    | none =>
        let computed := computeMask order byteOrder constraint vocabSize
        (some computed.1, { constraint with
          cache := found.2.insert stateHash computed.1
          recognizer := { constraint.recognizer with moment := computed.2 } })

/-- An identifier outside the index counts as a token without bytes. -/
def advance (order : HashOrder EarleyItem) (constraint : GrammarConstraint) (token : Nat) :
    Bool × GrammarConstraint :=
  match constraint.tokenBytes[token]? with
  | none => (constraint.recognizer.isAccepting, constraint)
  | some bytes =>
      if bytes = [] then (constraint.recognizer.isAccepting, constraint)
      else
        let fed := EarleyRecognizer.feedBytes order constraint.recognizer bytes
        (fed.2, { constraint with recognizer := fed.1 })

def isComplete (constraint : GrammarConstraint) : Bool := constraint.recognizer.isAccepting

def reset (order : HashOrder EarleyItem) (constraint : GrammarConstraint) : GrammarConstraint :=
  { constraint with recognizer := constraint.recognizer.reset order }

end GrammarConstraint

end Pictor
