import Pictor.Proof.Grammar.FirstExact
import Pictor.Proof.Grammar.MaskExact
import Pictor.Proof.Grammar.NormaliseExact

namespace Pictor
open List

namespace AllowedTokensCache

/-- A lookup after a removal finds only what the list held before. -/
theorem lookup_of_filter (entries : List (UInt64 × List Bool)) (oldest key : UInt64) (mask : List Bool)
    (found : (entries.filter fun entry => entry.1 != oldest).lookup key = some mask) :
    entries.lookup key = some mask := by
  have absent : key ≠ oldest := by
    rintro rfl
    rw [lookup_eq_none_iff.mpr] at found
    · cases found
    · intro entry member
      have kept := (mem_filter.mp member).2
      simpa [bne, Bool.beq_comm] using kept
  induction entries with
  | nil => exact found
  | cons entry rest ih =>
      rw [filter_cons] at found
      rw [lookup_cons]
      cases same : key == entry.1 with
      | true =>
          have kept : (entry.1 != oldest) = true := by
            have equal : key = entry.1 := by simpa using same
            simpa [equal] using absent
          rwa [if_pos kept, lookup_cons, same] at found
      | false =>
          split at found
          · rw [lookup_cons, same] at found
            exact ih found
          · exact ih found

variable (cache : AllowedTokensCache)
include cache

theorem lookup_of_evict (key : UInt64) (mask : List Bool) (found : cache.evict.inner.lookup key = some mask) :
    cache.inner.lookup key = some mask := by
  unfold evict at found
  split at found
  · split at found
    · exact found
    · exact lookup_of_filter _ _ _ _ found
  · exact found

/-- An insertion adds only its own mask, and only for a key without a mask. -/
theorem lookup_of_insert (stateHash key : UInt64) (mask found : List Bool)
    (lookup : (cache.insert stateHash mask).inner.lookup key = some found) : cache.inner.lookup key = some found ∨
      (key = stateHash ∧ found = mask ∧ cache.inner.lookup stateHash = none) := by
  unfold insert at lookup
  split at lookup
  · exact Or.inl lookup
  · rename_i absent
    have none : cache.inner.lookup stateHash = none := by
      cases found : cache.inner.lookup stateHash <;> simp_all
    dsimp only at lookup
    rw [lookup_cons] at lookup
    cases same : key == stateHash with
    | true =>
        rw [same] at lookup
        exact Or.inr ⟨by simpa using same, (Option.some.inj lookup).symm, none⟩
    | false =>
        rw [same] at lookup
        exact Or.inl (lookup_of_evict cache key found lookup)

@[simp] theorem get_fst (stateHash : UInt64) : (cache.get stateHash).1 = cache.inner.lookup stateHash := by
  unfold get
  cases cache.inner.lookup stateHash <;> rfl

@[simp] theorem get_inner (stateHash : UInt64) : (cache.get stateHash).2.inner = cache.inner := by
  unfold get
  cases cache.inner.lookup stateHash <;> rfl

end AllowedTokensCache

/-- Equal sorted triples come from equal sets. -/
theorem sortedItems_injective : Function.Injective sortedItems := by
  intro first second same
  obtain ⟨first, firstDistinct⟩ := first
  obtain ⟨second, secondDistinct⟩ := second
  induction first using Quot.inductionOn with
  | _ first =>
  induction second using Quot.inductionOn with
  | _ second =>
      change (first.map EarleyItem.triple).insertionSort tripleLe =
        (second.map EarleyItem.triple).insertionSort tripleLe at same
      have permuted : (first.map EarleyItem.triple).Perm (second.map EarleyItem.triple) :=
        (perm_insertionSort tripleLe _).symm.trans
          (same ▸ perm_insertionSort tripleLe (second.map EarleyItem.triple))
      have injective : Function.Injective EarleyItem.triple := by
        intro item item' equal
        cases item
        cases item'
        simpa [EarleyItem.triple] using equal
      apply Finset.ext
      intro item
      have member := permuted.mem_iff (a := item.triple)
      rw [mem_map_of_injective injective, mem_map_of_injective injective] at member
      exact member

namespace GrammarConstraint
open EarleyRecognizer

/-- The constraint with a record that no code reads: the recognizer of the last call that found no
mask for a key. -/
structure Traced where
  constraint : GrammarConstraint
  origin : UInt64 → Option EarleyRecognizer

variable (order : HashOrder EarleyItem) (byteOrder : HashOrder UInt8) (hasher : StateHasher)

/-- The key of the next mask. -/
def Traced.key (traced : Traced) : UInt64 := traced.constraint.recognizer.stateHash hasher

/-- A mask call records its recognizer where the cache holds no mask. -/
def Traced.allowedTokens (traced : Traced) : Option (List Bool) × Traced :=
  let result := traced.constraint.allowedTokens order byteOrder hasher traced.constraint.vocabSize
  (result.1, ⟨result.2,
    if traced.constraint.cache.inner.lookup (traced.key hasher) = none then
      Function.update traced.origin (traced.key hasher) (some traced.constraint.recognizer)
    else traced.origin⟩)

def Traced.advance (traced : Traced) (token : Nat) : Bool × Traced :=
  let result := traced.constraint.advance order token
  (result.1, ⟨result.2, traced.origin⟩)

def Traced.reset (traced : Traced) : Traced := ⟨traced.constraint.reset order, traced.origin⟩

/-- A call that finds no mask records its recognizer. -/
theorem Traced.allowedTokens_origin (traced : Traced)
    (missed : traced.constraint.cache.inner.lookup (traced.key hasher) = none) :
    (traced.allowedTokens order byteOrder hasher).2.origin =
      Function.update traced.origin (traced.key hasher) (some traced.constraint.recognizer) :=
  if_pos missed

/-- The condition on a mask call. The tokens of a new mask have the same answer in every iteration
order, and a cached mask has a recorded recognizer with the same past, or no token has two bytes. -/
structure MaskReady (traced : Traced) : Prop where
  free : traced.constraint.cache.inner.lookup (traced.key hasher) = none →
    AnswersFree traced.constraint.vocabSize traced.constraint.bytesOf traced.constraint.recognizer
  past : ∀ origin, traced.constraint.cache.inner.lookup (traced.key hasher) ≠ none →
    traced.origin (traced.key hasher) = some origin →
    PastAgrees origin.chart traced.constraint.recognizer.chart traced.constraint.recognizer.inputPos ∨
      ∀ token < traced.constraint.vocabSize, (traced.constraint.bytesOf token).length ≤ 1

/-- The hash of a mask call does not collide with the hash of the recorded recognizer. -/
def CollisionFree (traced : Traced) : Prop :=
  ∀ origin, traced.origin (traced.key hasher) = some origin →
    origin.stateHash hasher = traced.key hasher →
    origin.stateKey = traced.constraint.recognizer.stateKey

/-- The runs of calls from a new constraint in which every mask call meets the condition. -/
inductive ReadyRun (grammar : Grammar) (decode : Nat → List UInt8) (vocabSize capacity : Nat) :
    Traced → Prop
  | new : ReadyRun grammar decode vocabSize capacity
      ⟨withCacheCapacity order grammar decode vocabSize capacity, fun _ => none⟩
  | advance {traced : Traced} (token : Nat) : ReadyRun grammar decode vocabSize capacity traced →
      ReadyRun grammar decode vocabSize capacity (traced.advance order token).2
  | reset {traced : Traced} : ReadyRun grammar decode vocabSize capacity traced →
      ReadyRun grammar decode vocabSize capacity (traced.reset order)
  | allowedTokens {traced : Traced} : ReadyRun grammar decode vocabSize capacity traced →
      MaskReady hasher traced → CollisionFree hasher traced →
      ReadyRun grammar decode vocabSize capacity (traced.allowedTokens order byteOrder hasher).2

/-- Every cached mask is exact for the recorded recognizer of its key. -/
structure CacheExact (grammar : Grammar) (decode : Nat → List UInt8) (vocabSize : Nat)
    (traced : Traced) : Prop where
  charted : ∃ word, Charted grammar word traced.constraint.recognizer
  indexed : Indexed decode vocabSize traced.constraint
  cached : ∀ key mask, traced.constraint.cache.inner.lookup key = some mask →
    ∃ origin word, traced.origin key = some origin ∧ origin.stateHash hasher = key ∧
      Charted grammar word origin ∧ MaskExact vocabSize decode origin mask

variable {order byteOrder hasher} {grammar : Grammar} {decode : Nat → List UInt8}
  {vocabSize capacity : Nat} {traced : Traced} {word : List UInt8} {state : EarleyRecognizer} {mask : List Bool}

/-- The chart does not depend on the moment. -/
theorem charted_moment (moment : Nat) (charted : Charted grammar word state) :
    Charted grammar word { state with moment := moment } := by
  obtain ⟨same, index, position, length, sound, saturated, started, scanned⟩ := charted
  constructor <;> assumption

/-- A byte slice leads to the chart of a longer word. -/
theorem feedBytes_charted (order : HashOrder EarleyItem) (bytes word : List UInt8)
    (state : EarleyRecognizer) (charted : Charted grammar word state) :
    ∃ later, Charted grammar later (feedBytes order state bytes).1 := by
  induction bytes generalizing word state with
  | nil => exact ⟨word, charted⟩
  | cons byte rest ih =>
      have next := feedByte_charted order charted byte
      rw [feedBytes]
      split
      · exact ih _ _ next
      · exact ⟨_, next⟩

/-- An exact mask shows that no answer depends on the iteration order. -/
theorem MaskExact.free (exact : MaskExact vocabSize decode state mask) : AnswersFree vocabSize decode state := by
  intro token inside order order' moment moment'
  have first := exact.2 token inside order moment
  have second := exact.2 token inside order' moment'
  rw [first] at second
  exact Option.some.inj second

/-- Two exact masks of one state are equal. -/
theorem MaskExact.unique (order : HashOrder EarleyItem) {mask' : List Bool}
    (exact : MaskExact vocabSize decode state mask) (exact' : MaskExact vocabSize decode state mask') :
    mask = mask' := by
  apply ext_getElem?
  intro token
  by_cases inside : token < vocabSize
  · rw [exact.2 token inside order 0, exact'.2 token inside order 0]
  · rw [getElem?_eq_none (by rw [exact.1]; omega), getElem?_eq_none (by rw [exact'.1]; omega)]

/-- A dead state and a blocked state have the blank mask. -/
theorem blank_exact (state : EarleyRecognizer) (decode : Nat → List UInt8) (vocabSize : Nat)
    (never : ∀ order moment bytes, tokenFits order { state with moment := moment } bytes = false) :
    MaskExact vocabSize decode state (List.replicate vocabSize false) := by
  constructor
  · simp
  · intro token inside order moment
    rw [never]
    simp [inside]

/-- Tokens of at most one byte get the same answer from equal current sets, in any two orders. -/
theorem tokenFits_short (order order' : HashOrder EarleyItem) (state state' : EarleyRecognizer)
    (bytes : List UInt8) (short : bytes.length ≤ 1) (same : state.grammar = state'.grammar)
    (current : state.current = state'.current) : tokenFits order state bytes = tokenFits order' state' bytes := by
  have scans (byte : UInt8) : state.scanned byte = state'.scanned byte := by
    unfold EarleyRecognizer.scanned
    rw [current, same]
  match bytes, short with
  | [], _ =>
      simp only [tokenFits, if_true, isAccepting, current, same]
  | [byte], _ =>
      simp only [tokenFits, cons_ne_nil, if_false, feedBytes]
      rw [feedByte_eq, feedByte_eq, scans byte]
      split_ifs <;> rfl

/-- An exact mask stays exact in a state with the same key and the same past. -/
theorem MaskExact.transfer {origin : EarleyRecognizer} {word' : List UInt8}
    (exact : MaskExact vocabSize decode origin mask) (charted : Charted grammar word origin)
    (charted' : Charted grammar word' state) (keys : origin.stateKey = state.stateKey)
    (past : PastAgrees origin.chart state.chart state.inputPos ∨ ∀ token < vocabSize, (decode token).length ≤ 1) :
    MaskExact vocabSize decode state mask := by
  obtain ⟨sets, positions⟩ := Prod.ext_iff.mp keys
  have current : origin.current = state.current := sortedItems_injective sets
  have length : word.length = word'.length := by
    have position : origin.inputPos = state.inputPos := positions
    rwa [charted.position, charted'.position] at position
  refine ⟨exact.1, fun token inside order moment => ?_⟩
  rw [exact.2 token inside order moment]
  apply congrArg some
  rcases past with agrees | short
  · have agree : Agrees grammar word word' { origin with moment := moment }
        { state with moment := moment } := by
      constructor
      · exact charted_moment moment charted
      · exact charted_moment moment charted'
      · exact length
      · rfl
      · rwa [charted'.position, ← length] at agrees
    rw [tokenFits, tokenFits]
    split
    · exact agree.isAccepting
    · exact agree.feedBytes order (decode token)
  · apply tokenFits_short
    · exact short token inside
    · exact charted.same.trans charted'.same.symm
    · exact current

/-- The condition of a mask call makes the mask exact. -/
theorem allowedTokens_fst (exact : CacheExact hasher grammar decode vocabSize traced)
    (ready : MaskReady hasher traced) (collision : CollisionFree hasher traced) :
    ∃ mask, (traced.allowedTokens order byteOrder hasher).1 = some mask ∧
      MaskExact vocabSize decode traced.constraint.recognizer mask := by
  obtain ⟨word, charted⟩ := exact.charted
  have size := exact.indexed.size
  simp only [Traced.allowedTokens, GrammarConstraint.allowedTokens, size]
  split
  · rename_i dead
    refine ⟨_, rfl, blank_exact _ _ _ fun order moment bytes => ?_⟩
    apply tokenFits_dead
    exact dead
  · split
    · rename_i blocked
      refine ⟨_, rfl, blank_exact _ _ _ fun order moment bytes => ?_⟩
      apply tokenFits_blocked
      exact blocked
    · split
      · rename_i mask found
        rw [AllowedTokensCache.get_fst] at found
        obtain ⟨origin, word', recorded, hash, charted', exact'⟩ := exact.cached _ _ found
        refine ⟨mask, rfl, exact'.transfer charted' charted (collision origin recorded hash) ?_⟩
        have past := ready.past origin (by
          rw [Traced.key, found]
          exact Option.some_ne_none mask) recorded
        rw [size] at past
        rcases past with agrees | short
        · exact Or.inl agrees
        · refine Or.inr fun token inside => ?_
          rw [← exact.indexed.bytes token inside]
          exact short token inside
      · rename_i missed
        rw [AllowedTokensCache.get_fst] at missed
        refine ⟨_, rfl, computeMask_exact order byteOrder exact.indexed fun token inside => ?_⟩
        rw [← exact.indexed.bytes token inside]
        exact ready.free missed token (by rwa [size])

/-- A mask call changes the cache and at most the moment of the recognizer. -/
theorem allowedTokens_snd (constraint : GrammarConstraint) (vocabSize : Nat) :
    ∃ cache moment, (constraint.allowedTokens order byteOrder hasher vocabSize).2 =
      { constraint with cache, recognizer := { constraint.recognizer with moment } } := by
  unfold GrammarConstraint.allowedTokens
  split
  · exact ⟨constraint.cache, constraint.recognizer.moment, rfl⟩
  · split
    · exact ⟨constraint.cache, constraint.recognizer.moment, rfl⟩
    · dsimp only
      split
      · exact ⟨_, constraint.recognizer.moment, rfl⟩
      · exact ⟨_, _, rfl⟩

/-- A mask call only adds the mask of its own key to the cache. -/
theorem allowedTokens_lookup (constraint : GrammarConstraint) (key : UInt64) (found : List Bool)
    (present : (constraint.allowedTokens order byteOrder hasher vocabSize).2.cache.inner.lookup key = some found) :
    constraint.cache.inner.lookup key = some found ∨
      (key = constraint.recognizer.stateHash hasher ∧ constraint.cache.inner.lookup key = none ∧
        (constraint.allowedTokens order byteOrder hasher vocabSize).1 = some found) := by
  revert present
  unfold GrammarConstraint.allowedTokens
  split
  · exact Or.inl
  · split
    · exact Or.inl
    · dsimp only
      split
      · intro present
        rw [AllowedTokensCache.get_inner] at present
        exact Or.inl present
      · intro present
        rcases AllowedTokensCache.lookup_of_insert _ _ _ _ _ present with old | ⟨rfl, rfl, none⟩
        · rw [AllowedTokensCache.get_inner] at old
          exact Or.inl old
        · rw [AllowedTokensCache.get_inner] at none
          exact Or.inr ⟨rfl, none, rfl⟩

/-- A mask call that meets the condition keeps the cache exact. -/
theorem CacheExact.allowedTokens (exact : CacheExact hasher grammar decode vocabSize traced)
    (ready : MaskReady hasher traced) (collision : CollisionFree hasher traced) :
    CacheExact hasher grammar decode vocabSize (traced.allowedTokens order byteOrder hasher).2 := by
  obtain ⟨word, charted⟩ := exact.charted
  obtain ⟨cache, moment, next⟩ := @allowedTokens_snd order byteOrder hasher traced.constraint traced.constraint.vocabSize
  obtain ⟨mask, returned, exactMask⟩ := @allowedTokens_fst order byteOrder _ _ _ _ _ exact ready collision
  have result : (traced.allowedTokens order byteOrder hasher).2.constraint =
      { traced.constraint with cache, recognizer := { traced.constraint.recognizer with moment } } := next
  constructor
  · rw [result]
    exact ⟨word, charted_moment moment charted⟩
  · rw [result]
    obtain ⟨size, bytes, first, empty⟩ := exact.indexed
    constructor <;> assumption
  · intro key found present
    rcases allowedTokens_lookup _ _ _ present with old | ⟨rfl, missed, computed⟩
    · obtain ⟨origin, word', recorded, rest⟩ := exact.cached key found old
      refine ⟨origin, word', ?_, rest⟩
      simp only [Traced.allowedTokens]
      split
      · -- The record changes only at a key without a mask.
        rename_i missed
        rw [Function.update_of_ne, recorded]
        rintro rfl
        rw [missed] at old
        cases old
      · exact recorded
    · have same : found = mask := by
        have other : (traced.allowedTokens order byteOrder hasher).1 = some found := computed
        rw [returned] at other
        exact (Option.some.inj other).symm
      refine ⟨traced.constraint.recognizer, word, ?_, rfl, charted, same ▸ exactMask⟩
      rw [Traced.allowedTokens_origin _ _ _ _ missed]
      exact Function.update_self _ _ _

/-- Every state of a run has an exact cache. -/
theorem ReadyRun.cacheExact (small : vocabSize < 2 ^ 32)
    (run : ReadyRun order byteOrder hasher grammar decode vocabSize capacity traced) :
    CacheExact hasher grammar.normaliseTerminals decode vocabSize traced := by
  induction run with
  | new =>
      constructor
      · exact ⟨[], new_charted order grammar.normaliseTerminals⟩
      · exact withCacheCapacity_indexed order grammar decode vocabSize capacity small
      · intro key mask found
        cases found
  | @advance traced token _ ih =>
      obtain ⟨⟨word, charted⟩, ⟨size, bytes, first, empty⟩, cached⟩ := ih
      simp only [Traced.advance, GrammarConstraint.advance]
      split
      · exact ⟨⟨word, charted⟩, ⟨size, bytes, first, empty⟩, cached⟩
      · split
        · exact ⟨⟨word, charted⟩, ⟨size, bytes, first, empty⟩, cached⟩
        · exact ⟨feedBytes_charted order _ word _ charted, ⟨size, bytes, first, empty⟩, cached⟩
  | reset _ ih =>
      obtain ⟨⟨word, charted⟩, ⟨size, bytes, first, empty⟩, cached⟩ := ih
      exact ⟨⟨[], reset_charted order charted⟩, ⟨size, bytes, first, empty⟩, cached⟩
  | allowedTokens _ ready collision ih => exact ih.allowedTokens ready collision

/-- In a run whose mask calls meet the condition each mask holds the answers of the advances before
and after the call, and it equals a fresh mask. -/
theorem allowedTokens_exact (small : vocabSize < 2 ^ 32)
    (run : ReadyRun order byteOrder hasher grammar decode vocabSize capacity traced)
    (ready : MaskReady hasher traced) (collision : CollisionFree hasher traced) :
    ∃ mask, (traced.constraint.allowedTokens order byteOrder hasher vocabSize).1 = some mask ∧
      mask = (computeMask order byteOrder traced.constraint vocabSize).1 ∧ mask.length = vocabSize ∧
      ∀ token < vocabSize, mask[token]? = some (traced.constraint.advance order token).1 ∧
        mask[token]? = some ((traced.constraint.allowedTokens order byteOrder hasher
          vocabSize).2.advance order token).1 := by
  have exact := run.cacheExact small
  obtain ⟨mask, returned, exactMask⟩ := @allowedTokens_fst order byteOrder _ _ _ _ _ exact ready collision
  obtain ⟨cache, moment, next⟩ := @allowedTokens_snd order byteOrder hasher traced.constraint vocabSize
  rw [Traced.allowedTokens, exact.indexed.size] at returned
  refine ⟨mask, returned, ?_, exactMask.1, ?_⟩
  · have fresh := computeMask_exact order byteOrder exact.indexed exactMask.free
    exact exactMask.unique order fresh
  · intro token inside
    rw [advance_fst, advance_fst, next]
    have bytes := exact.indexed.bytes token inside
    constructor
    · rw [bytes]
      exact exactMask.2 token inside order traced.constraint.recognizer.moment
    · change _ = some (tokenFits order _ (traced.constraint.bytesOf token))
      rw [bytes]
      exact exactMask.2 token inside order moment

/-- A polynomial hash of the sorted triples. -/
def polynomialHasher : StateHasher := fun items position =>
  UInt64.ofNat (items.foldl (fun hash triple => hash * 31 + triple.1 * 7 + triple.2.1 * 3 + triple.2.2)
    position)

/-- The grammar S ::= a B x | b B y and B ::= c d. -/
def wrappedGrammar : Grammar where
  rules := [⟨0, [.terminal [97], .nonTerminal 1, .terminal [120]]⟩,
    ⟨0, [.terminal [98], .nonTerminal 1, .terminal [121]]⟩, ⟨1, [.terminal [99], .terminal [100]]⟩]
  start := 0
  ntNames := []
  ntCount := 2

/-- The state after the token 0. -/
def wrappedFirst (decode : Nat → List UInt8) : Traced :=
  let start : Traced := ⟨withCacheCapacity itemOrder wrappedGrammar decode 3 4, fun _ => none⟩
  (start.advance itemOrder 0).2

/-- The run then asks for a mask, resets and feeds the token 1. -/
def wrappedRun (decode : Nat → List UInt8) : Traced :=
  let masked := ((wrappedFirst decode).allowedTokens itemOrder HashOrder.risingBytes polynomialHasher).2
  ((masked.reset itemOrder).advance itemOrder 1).2

/-- The tokens a, a and c have one byte each. -/
def oneByteTokens : Nat → List UInt8
  | 0 => [97]
  | 1 => [97]
  | _ => [99]

theorem oneByteTokens_length (token : Nat) : (oneByteTokens token).length ≤ 1 :=
  match token with
  | 0 | 1 | _ + 2 => Nat.le_refl 1

theorem wrappedRun_origin (decode : Nat → List UInt8) : (wrappedRun decode).origin =
    ((wrappedFirst decode).allowedTokens itemOrder HashOrder.risingBytes polynomialHasher).2.origin := rfl

/-- The second mask comes from the cache. -/
theorem allowedTokens_exact_oneByteTokens :
    ∃ mask, ((wrappedRun oneByteTokens).constraint.allowedTokens itemOrder HashOrder.risingBytes
        polynomialHasher 3).1 = some mask ∧
      mask = (computeMask itemOrder HashOrder.risingBytes (wrappedRun oneByteTokens).constraint 3).1 ∧
      mask.length = 3 ∧ ∀ token < 3,
        mask[token]? = some ((wrappedRun oneByteTokens).constraint.advance itemOrder token).1 ∧
        mask[token]? = some (((wrappedRun oneByteTokens).constraint.allowedTokens itemOrder
          HashOrder.risingBytes polynomialHasher 3).2.advance itemOrder token).1 := by
  have started : ReadyRun itemOrder HashOrder.risingBytes polynomialHasher wrappedGrammar oneByteTokens 3 4
      (wrappedFirst oneByteTokens) := .advance 0 .new
  have indexed := (started.cacheExact (by decide)).indexed
  have ready : MaskReady polynomialHasher (wrappedFirst oneByteTokens) := by
    refine ⟨fun _ token inside order order' moment moment' => ?_, fun _ _ recorded => by cases recorded⟩
    rw [indexed.size] at inside
    rw [indexed.bytes token inside]
    exact tokenFits_short order order' _ _ _ (oneByteTokens_length token) rfl rfl
  have run : ReadyRun itemOrder HashOrder.risingBytes polynomialHasher wrappedGrammar oneByteTokens 3 4
      (wrappedRun oneByteTokens) :=
    .advance 1 (.reset (.allowedTokens started ready fun _ recorded => by cases recorded))
  have indexed' := (run.cacheExact (by decide)).indexed
  apply allowedTokens_exact (by decide) run
  · constructor
    · intro missed
      have present : (wrappedRun oneByteTokens).constraint.cache.inner.lookup
        ((wrappedRun oneByteTokens).key polynomialHasher) ≠ none := by decide
      exact absurd missed present
    · intro _ _ _
      refine Or.inr fun token inside => ?_
      rw [indexed'.size] at inside
      rw [indexed'.bytes token inside]
      exact oneByteTokens_length token
  · intro origin recorded _
    have same : (wrappedRun oneByteTokens).key polynomialHasher =
      (wrappedFirst oneByteTokens).key polynomialHasher := by decide
    have missed : (wrappedFirst oneByteTokens).constraint.cache.inner.lookup
      ((wrappedFirst oneByteTokens).key polynomialHasher) = none := rfl
    have first := Traced.allowedTokens_origin itemOrder HashOrder.risingBytes polynomialHasher _ missed
    rw [same, wrappedRun_origin, first, Function.update_self] at recorded
    rw [← Option.some.inj recorded]
    decide

/-- The tokens ac, bc and dx. -/
def crossedTokens : Nat → List UInt8
  | 0 => [97, 99]
  | 1 => [98, 99]
  | _ => [100, 120]

/-- The two mask calls see equal sets and positions, so the second mask comes from the cache. It allows
the token 2, which the constraint then rejects. -/
theorem crossedTokens_mask_wrong : (wrappedRun crossedTokens).constraint.recognizer.stateKey =
      (wrappedFirst crossedTokens).constraint.recognizer.stateKey ∧
    ((wrappedRun crossedTokens).constraint.allowedTokens itemOrder HashOrder.risingBytes polynomialHasher 3).1 =
      some [false, false, true] ∧ ((wrappedRun crossedTokens).constraint.advance itemOrder 2).1 = false := by
  decide

variable (order byteOrder hasher grammar decode vocabSize capacity) in
/-- The bytes of the tokens that a constraint was advanced by since its start or its last reset, also behind a rejected
one. Masks may be asked for at any time and of any size. -/
inductive Spells : GrammarConstraint → List UInt8 → Prop
  | new : Spells (withCacheCapacity order grammar decode vocabSize capacity) []
  | advance {constraint : GrammarConstraint} {word : List UInt8} (token : Nat) : Spells constraint word →
      Spells (constraint.advance order token).2 (word ++ constraint.tokenBytes.getD token [])
  | allowedTokens {constraint : GrammarConstraint} {word : List UInt8} (size : Nat) : Spells constraint word →
      Spells (constraint.allowedTokens order byteOrder hasher size).2 word
  | reset {constraint : GrammarConstraint} {word : List UInt8} : Spells constraint word →
      Spells (constraint.reset order) []

/-- The chart of a live recognizer is that of a word. -/
def LiveAt (grammar : Grammar) (word : List UInt8) (state : EarleyRecognizer) : Prop :=
  ∃ fed, Charted grammar fed state ∧ (state.current ≠ ∅ → fed = word)

theorem feedBytes_liveAt (bytes : List UInt8) (live : LiveAt grammar word state) :
    LiveAt grammar (word ++ bytes) (feedBytes order state bytes).1 := by
  induction bytes generalizing word state with
  | nil => rwa [append_nil]
  | cons byte rest ih =>
      obtain ⟨fed, charted, same⟩ := live
      have next := feedByte_charted order charted byte
      rw [feedBytes, ← singleton_append, ← append_assoc]
      by_cases stuck : state.scanned byte = ∅
      · have dead : (feedByte order state byte).1.current = ∅ := by
          rw [feedByte_eq, if_pos stuck]
          change itemsAt (state.chart ++ [state.scanned byte]) (state.inputPos + 1) = ∅
          rw [charted.position, ← charted.length, stuck, itemsAt, getD_eq_getElem?_getD, getElem?_concat_length]
          rfl
        rw [show (feedByte order state byte).2 = false by rw [feedByte_eq, if_pos stuck], if_neg Bool.false_ne_true]
        exact ⟨_, next, fun filled => absurd dead filled⟩
      · have scans : state.current ≠ ∅ := by
          intro none
          rw [scanned, none] at stuck
          exact stuck rfl
        rw [show (feedByte order state byte).2 = true by rw [feedByte_eq, if_neg stuck], if_pos rfl]
        exact ih ⟨_, next, fun _ => by rw [same scans]⟩

theorem Spells.liveAt {constraint : GrammarConstraint}
    (spells : Spells order byteOrder hasher grammar decode vocabSize capacity constraint word) :
    LiveAt grammar.normaliseTerminals word constraint.recognizer := by
  induction spells with
  | new => exact ⟨[], new_charted order grammar.normaliseTerminals, fun _ => rfl⟩
  | @advance constraint word token _ ih =>
      rw [GrammarConstraint.advance, getD_eq_getElem?_getD]
      cases found : constraint.tokenBytes[token]? with
      | none => rwa [Option.getD_none, append_nil]
      | some bytes =>
          dsimp only [Option.getD_some]
          split
          case isTrue empty => rwa [empty, append_nil]
          case isFalse => exact feedBytes_liveAt bytes ih
  | @allowedTokens constraint word size _ ih =>
      obtain ⟨cache, moment, next⟩ := @allowedTokens_snd order byteOrder hasher constraint size
      obtain ⟨fed, charted, same⟩ := ih
      rw [next]
      exact ⟨fed, charted_moment moment charted, same⟩
  | reset _ ih =>
      obtain ⟨fed, charted, _⟩ := ih
      exact ⟨[], reset_charted order charted, fun _ => rfl⟩

/-- A constraint is never complete behind a word that its grammar does not generate. -/
theorem isComplete_generates {constraint : GrammarConstraint} (bounded : grammar.Bounded)
    (inside : grammar.start < grammar.ntCount)
    (spells : Spells order byteOrder hasher grammar decode vocabSize capacity constraint word)
    (complete : constraint.isComplete = true) : grammar.Generates word := by
  obtain ⟨fed, charted, same⟩ := spells.liveAt
  obtain ⟨item, present, lhs, fromZero, dot⟩ := (isAccepting_iff charted).mp complete
  have current : constraint.recognizer.current ≠ ∅ := by
    rw [EarleyRecognizer.current, charted.position]
    exact Finset.ne_empty_of_mem present
  rw [← same current]
  have finished := getElem?_eq_none_iff.mpr (Nat.le_of_eq dot.symm)
  exact Grammar.generates_original bounded inside ((charted.sound _ item present).generates fromZero lhs finished)

/-- After a rejected token and a reset the tokens ac and dx spell a word. -/
theorem isComplete_generates_crossed : wrappedGrammar.Generates [97, 99, 100, 120] := by
  have spells : Spells itemOrder HashOrder.risingBytes polynomialHasher wrappedGrammar crossedTokens 3 4 _ _ :=
    .advance 2 (.allowedTokens 3 (.advance 0 (.reset (.advance 2 .new))))
  have bounded : wrappedGrammar.Bounded := by
    constructor
    · decide
    · intro rule member id inside
      simp only [wrappedGrammar, mem_cons, not_mem_nil, or_false] at member
      rcases member with rfl | rfl | rfl <;> simp only [mem_cons, not_mem_nil, or_false, false_or, reduceCtorEq,
        Symbol.nonTerminal.injEq] at inside <;> exact inside ▸ Nat.one_lt_two
  exact isComplete_generates bounded (by decide) spells (by decide)

end GrammarConstraint

end Pictor

namespace Pictor.EarleyRecognizer
open Grammar List

variable {order : HashOrder EarleyItem} {grammar : Grammar} {word : List UInt8} {state : EarleyRecognizer}

/-- Items that were predicted at a position are advanced over the non-terminals that are complete there. -/
def PredictionsClosed (grammar : Grammar) (items : Finset EarleyItem) (k : Nat) : Prop :=
  ∀ done ∈ items, done.origin = k → grammar.nextSymbol done = none →
    ∀ item ∈ items, item.origin = k →
      grammar.nextSymbol item = some (.nonTerminal (grammar.ruleAt done.rule).lhs) → item.advanced ∈ items

instance (grammar : Grammar) (items : Finset EarleyItem) (k : Nat) : Decidable (PredictionsClosed grammar items k) := by
  unfold PredictionsClosed
  infer_instance

variable {item : EarleyItem} {rest : List Symbol}

/-- The dot of an item stands before a symbol sequence. -/
theorem nextSymbol_of_drop {symbol : Symbol} (dropped : (grammar.ruleAt item.rule).rhs.drop item.dot = symbol :: rest) :
    grammar.nextSymbol item = some symbol ∧ (grammar.ruleAt item.advanced.rule).rhs.drop item.advanced.dot = rest := by
  rw [nextSymbol, ← head?_drop, dropped, EarleyItem.advanced_rule, EarleyItem.advanced_dot, ← tail_drop,
    dropped]
  exact ⟨rfl, rfl⟩

/-- A start of a rule that was predicted at the current position: an item that scans the byte, or the complete rule. -/
def Reaches (grammar : Grammar) (state : EarleyRecognizer) (rule : RuleId) : Option UInt8 → Prop
  | some byte => ∃ item ∈ state.current, scans grammar byte item
  | none => ∃ done ∈ state.current, done.origin = state.inputPos ∧ done.rule = rule ∧ grammar.nextSymbol done = none

/-- What the rest of a predicted item may start with is found in the chart. -/
theorem predicted_reaches (normal : grammar.Normalised) (charted : Charted grammar word state)
    (closed : PredictionsClosed grammar state.current state.inputPos) {start : Option UInt8}
    (starts : Starts grammar rest start) (member : item ∈ state.current) (here : item.origin = state.inputPos)
    (dropped : (grammar.ruleAt item.rule).rhs.drop item.dot = rest) : Reaches grammar state item.rule start := by
  have saturated := charted.saturated state.inputPos
  induction starts generalizing item with
  | nil =>
      refine ⟨item, member, here, rfl, ?_⟩
      rw [nextSymbol, ← head?_drop, dropped]
      rfl
  | emptyTerminal _ ih =>
      obtain ⟨next, later⟩ := nextSymbol_of_drop dropped
      exact @ih item.advanced (saturated.empty item member next) here later
  | @terminal byte bytes rest =>
      obtain ⟨next, _⟩ := nextSymbol_of_drop dropped
      have inside : item.rule < grammar.rules.length := (charted.sound _ _ member).bounds.2.1
      have short := normal.terminals _ (grammar.ruleAt_mem item.rule inside) _ (mem_of_getElem? next)
      obtain rfl : bytes = [] := length_eq_zero_iff.mp (Nat.le_zero.mp (Nat.le_of_succ_le_succ short))
      exact ⟨item, member, next⟩
  | front inside _ ih =>
      obtain ⟨next, _⟩ := nextSymbol_of_drop dropped
      obtain ⟨id, bound, rfl⟩ := grammar.exists_ruleAt inside
      exact @ih ⟨id, 0, _⟩ (saturated.predict item member id bound next) rfl drop_zero
  | behind inside _ _ ih ih' =>
      obtain ⟨next, later⟩ := nextSymbol_of_drop dropped
      obtain ⟨id, bound, rfl⟩ := grammar.exists_ruleAt inside
      obtain ⟨done, present, origin, same, finished⟩ :=
        @ih ⟨id, 0, _⟩ (saturated.predict item member id bound next) rfl drop_zero
      have advanced := closed done present origin finished item member here (by rw [same]; exact next)
      exact @ih' item.advanced advanced here later

/-- A byte is accepted exactly if an item scans it. -/
theorem feedByte_accepts (order : HashOrder EarleyItem) (state : EarleyRecognizer) (byte : UInt8) :
    (feedByte order state byte).2 = true ↔ ∃ item ∈ state.current, scans state.grammar byte item := by
  rw [feedByte_eq]
  by_cases none : state.scanned byte = ∅
  · rw [if_pos none]
    rw [EarleyRecognizer.scanned, Finset.image_eq_empty, Finset.filter_eq_empty_iff] at none
    refine iff_of_false Bool.false_ne_true ?_
    rintro ⟨item, member, scan⟩
    exact none member scan
  · rw [if_neg none]
    obtain ⟨advanced, member⟩ := Finset.nonempty_iff_ne_empty.mpr none
    obtain ⟨item, present, _⟩ := Finset.mem_image.mp member
    exact iff_of_true rfl ⟨item, Finset.mem_filter.mp present⟩

theorem feedBytes_firstSets (order : HashOrder EarleyItem) (word : List UInt8) (state : EarleyRecognizer) :
    (feedBytes order state word).1.firstSets = state.firstSets := by
  induction word generalizing state with
  | nil => rfl
  | cons byte rest ih =>
      have kept : (feedByte order state byte).1.firstSets = state.firstSets := by
        rw [feedByte_eq]
        split <;> rfl
      rw [feedBytes]
      split
      · rw [ih, kept]
      · exact kept

/-- In every state that accepted bytes lead to, if the predicted items are advanced over the non-terminals that are
complete, the next byte set holds exactly the bytes that are accepted next. -/
theorem nextByteSet_iff_accepted (order : HashOrder EarleyItem) (grammar : Grammar) (normal : grammar.Normalised)
    (word : List UInt8) (state : EarleyRecognizer) (reached : feedBytes order (new order grammar) word = (state, true))
    (closed : PredictionsClosed grammar state.current state.inputPos) (byte : UInt8) :
    byte ∈ state.nextByteSet ↔ (feedByte order state byte).2 = true := by
  obtain ⟨later, charted⟩ := GrammarConstraint.feedBytes_charted order word [] (new order grammar) (new_charted order grammar)
  have sets := feedBytes_firstSets order word (new order grammar)
  rw [reached] at charted sets
  dsimp only at charted sets
  have computed : state.firstSets = FirstSets.compute grammar := by
    rw [sets, EarleyRecognizer.new]
    rfl
  rw [feedByte_accepts, charted.same]
  constructor
  · intro member
    obtain ⟨item, present, inside⟩ := Finset.mem_biUnion.mp member
    rw [nextBytesOf, charted.same] at inside
    split at inside
    case h_1 only next =>
      rw [Finset.mem_singleton.mp inside]
      exact ⟨item, present, next⟩
    case h_2 nt next =>
      rw [computed] at inside
      have starts := (FirstSets.compute_knows normal.lhsBound nt (some byte)).mp inside
      obtain ⟨rule, ruled, rfl, inner⟩ := starts_nonTerminal.mp starts
      obtain ⟨id, bound, rfl⟩ := grammar.exists_ruleAt ruled
      have predicted := (charted.saturated state.inputPos).predict item present id bound next
      exact predicted_reaches normal charted closed inner predicted rfl drop_zero
    case h_3 => cases inside
  · rintro ⟨item, present, scan⟩
    refine Finset.mem_biUnion.mpr ⟨item, present, ?_⟩
    rw [nextBytesOf, charted.same, show grammar.nextSymbol item = some (.terminal [byte]) from scan]
    exact Finset.mem_singleton_self byte

/-- Before an optional symbol the byte behind it is in the next byte set exactly if it is accepted. -/
theorem nextByteSet_iff_accepted_optional : 120 ∈ (recognize itemOrder optionalGrammar []).nextByteSet ↔
    (feedByte itemOrder (recognize itemOrder optionalGrammar []) 120).2 = true :=
  nextByteSet_iff_accepted itemOrder optionalGrammar optionalGrammar_normalised [] _ rfl (by decide) 120

/-- The byte `b` behind the empty symbol twice, below the start symbol. -/
def doubledPrefixGrammar : Grammar :=
  ⟨[⟨0, [.nonTerminal 1]⟩, ⟨1, [.nonTerminal 2, .nonTerminal 2, .terminal [98]]⟩, ⟨2, []⟩], 0, [], 3⟩

/-- The byte is in the next byte set of the start and is refused. -/
theorem doubledPrefix_refused : doubledPrefixGrammar.Normalised ∧
    98 ∈ (new itemOrder doubledPrefixGrammar).nextByteSet ∧
    (feedByte itemOrder (new itemOrder doubledPrefixGrammar) 98).2 = false := by
  refine ⟨by constructor <;> simp [doubledPrefixGrammar], by decide, by decide⟩

end Pictor.EarleyRecognizer
