import Pictor.Proof.Grammar.EarleyExact

namespace Pictor.EarleyRecognizer

/-- The positions that the items of a position point back to, directly or through other items. -/
inductive Ancestor (chart : List (Finset EarleyItem)) (k : Nat) : Nat → Prop
  | here : Ancestor chart k k
  | back {j : Nat} {item : EarleyItem} :
      Ancestor chart k j → item ∈ itemsAt chart j → Ancestor chart k item.origin

/-- Two charts have the same sets at every position that the first one points back to. -/
def PastAgrees (chart chart' : List (Finset EarleyItem)) (k : Nat) : Prop :=
  ∀ j, Ancestor chart k j → itemsAt chart j = itemsAt chart' j

/-- Two recognizers at the same moment that differ at most in sets no item points back to. -/
structure Agrees (grammar : Grammar) (word word' : List UInt8)
    (state state' : EarleyRecognizer) : Prop where
  charted : Charted grammar word state
  charted' : Charted grammar word' state'
  length : word.length = word'.length
  moment : state.moment = state'.moment
  past : PastAgrees state.chart state'.chart word.length

variable {grammar : Grammar} {word word' : List UInt8} {state state' : EarleyRecognizer}

/-- An ancestor is never later than the position. -/
theorem Ancestor.le (charted : Charted grammar word state) {k j : Nat}
    (ancestor : Ancestor state.chart k j) : j ≤ k := by
  induction ancestor with
  | here => exact Nat.le_refl k
  | back _ member ih => exact (charted.sound _ _ member).bounds.1.trans ih

variable (agrees : Agrees grammar word word' state state')
include agrees

theorem Agrees.current : state.current = state'.current := by
  have here := agrees.past word.length .here
  rwa [EarleyRecognizer.current, EarleyRecognizer.current, agrees.charted.position,
    agrees.charted'.position, ← agrees.length]

theorem Agrees.isAccepting : state.isAccepting = state'.isAccepting := by
  unfold EarleyRecognizer.isAccepting
  rw [agrees.current, agrees.charted.same, agrees.charted'.same]

theorem Agrees.scanned (byte : UInt8) : state.scanned byte = state'.scanned byte := by
  unfold EarleyRecognizer.scanned
  rw [agrees.current, agrees.charted.same, agrees.charted'.same]

omit agrees

/-- An item of the new position starts there or at an ancestor. -/
def Rooted (chart : List (Finset EarleyItem)) (k : Nat) (item : EarleyItem) : Prop :=
  item.origin = k + 1 ∨ Ancestor chart k item.origin

/-- The candidates of rooted items are rooted. -/
theorem candidates_rooted (order : HashOrder EarleyItem) (charted : Charted grammar word state)
    (byte : UInt8) (moment : Nat) (current : Finset EarleyItem) (item : EarleyItem)
    (rooted : ∀ item ∈ current, Rooted state.chart word.length item) (member : item ∈ current) :
    ∀ next ∈ candidates order grammar (buildRuleIndex grammar) (state.pushed byte).chart
      (word.length + 1) moment current item, Rooted state.chart word.length next := by
  intro next candidate
  cases symbol : grammar.nextSymbol item with
  | none =>
      obtain ⟨waiting, here, _, rfl⟩ := (mem_candidates_complete order grammar _ _ moment current item
        next symbol).mp candidate
      rcases rooted item member with new | old
      · rw [if_pos new] at here
        exact rooted waiting here
      · have upper := old.le charted
        rw [if_neg (by omega), pushed_itemsAt_old _ _ _ (by rw [charted.length]; omega)] at here
        have rooted' : Ancestor state.chart word.length waiting.origin := .back old here
        exact Or.inr rooted'
  | some symbol' =>
      cases symbol' with
      | nonTerminal nt =>
          obtain ⟨_, _, _, rfl⟩ := (mem_candidates_predict order grammar _ _ moment current item next nt
            symbol).mp candidate
          exact Or.inl rfl
      | terminal bytes =>
          obtain ⟨_, rfl⟩ := (mem_candidates_terminal order grammar _ _ moment current item next bytes
            symbol).mp candidate
          exact rooted item member

/-- Agreeing charts give a rooted item the same candidates. -/
theorem candidates_agrees (order : HashOrder EarleyItem)
    (agrees : Agrees grammar word word' state state') (byte : UInt8) (moment : Nat)
    (current : Finset EarleyItem) (item : EarleyItem) (rooted : Rooted state.chart word.length item) :
    candidates order grammar (buildRuleIndex grammar) (state.pushed byte).chart (word.length + 1)
        moment current item =
      candidates order grammar (buildRuleIndex grammar) (state'.pushed byte).chart (word.length + 1)
        moment current item := by
  have same : (if item.origin = word.length + 1 then current
        else itemsAt (state.pushed byte).chart item.origin) =
      if item.origin = word.length + 1 then current
        else itemsAt (state'.pushed byte).chart item.origin := by
    rcases rooted with new | old
    · rw [if_pos new, if_pos new]
    · have upper := old.le agrees.charted
      rw [if_neg (by omega), if_neg (by omega),
        pushed_itemsAt_old _ _ _ (by rw [agrees.charted.length]; omega),
        pushed_itemsAt_old _ _ _ (by rw [agrees.charted'.length, ← agrees.length]; omega)]
      exact agrees.past _ old
  simp only [candidates, same]

/-- The scanned items are rooted. -/
theorem scanned_rooted (charted : Charted grammar word state) (byte : UInt8) :
    ∀ item ∈ state.scanned byte, Rooted state.chart word.length item := by
  intro item member
  simp only [EarleyRecognizer.scanned, EarleyRecognizer.current, Finset.mem_image, Finset.mem_filter,
    charted.position] at member
  obtain ⟨earlier, ⟨present, _⟩, rfl⟩ := member
  have back : Ancestor state.chart word.length earlier.origin := .back .here present
  exact Or.inr back

/-- Agreeing recognizers give the same answer to a byte, and they still agree where it is accepted. -/
theorem Agrees.feedByte (order : HashOrder EarleyItem)
    (agrees : Agrees grammar word word' state state') (byte : UInt8) :
    (feedByte order state byte).2 = (feedByte order state' byte).2 ∧
      ((feedByte order state byte).2 = true → Agrees grammar (word ++ [byte]) (word' ++ [byte])
        (feedByte order state byte).1 (feedByte order state' byte).1) := by
  have charted := feedByte_charted order agrees.charted byte
  have charted' := feedByte_charted order agrees.charted' byte
  have old := feedByte_itemsAt_old order agrees.charted byte
  have old' := feedByte_itemsAt_old order agrees.charted' byte
  have position : state'.inputPos = state.inputPos := by
    rw [agrees.charted.position, agrees.charted'.position, agrees.length]
  rw [feedByte_eq] at charted charted' old old' ⊢
  rw [feedByte_eq]
  rw [position] at charted' old' ⊢
  rw [← agrees.scanned byte] at charted' old' ⊢
  split_ifs at charted charted' old old' ⊢ with none
  · exact ⟨rfl, fun impossible => impossible.elim⟩
  · refine ⟨rfl, fun _ => ?_⟩
    have here : itemsAt (state.pushed byte).chart (word.length + 1) = state.scanned byte := by
      rw [← agrees.charted.length, pushed_itemsAt_new]
    have here' : itemsAt (state'.pushed byte).chart (word.length + 1) = state.scanned byte := by
      rw [agrees.length, ← agrees.charted'.length, pushed_itemsAt_new, agrees.scanned byte]
    let loop (chart : List (Finset EarleyItem)) :=
      Worklist.close (candidates order grammar (buildRuleIndex grammar) chart (word.length + 1))
        (itemCount grammar (word.length + 1)) (state.moment + 1) (state.scanned byte)
        (order.iterate state.moment (state.scanned byte))
    have queued : ∀ item ∈ order.iterate state.moment (state.scanned byte),
        item ∈ state.scanned byte := fun item => (order.mem _ _ _).mp
    have step : ∀ moment seen item, (∀ other ∈ seen, Rooted state.chart word.length other) →
        item ∈ seen → ∀ next ∈ candidates order grammar (buildRuleIndex grammar)
          (state.pushed byte).chart (word.length + 1) moment seen item,
        Rooted state.chart word.length next :=
      fun moment seen item rooted member =>
        candidates_rooted order agrees.charted byte moment seen item rooted member
    have equal : loop (state.pushed byte).chart = loop (state'.pushed byte).chart :=
      Worklist.close_congr _ _ (Rooted state.chart word.length)
        (fun moment seen item rooted member =>
          candidates_agrees order agrees byte moment seen item (rooted item member))
        step _ _ _ _ queued (scanned_rooted agrees.charted byte)
    have rooted : ∀ item ∈ (loop (state.pushed byte).chart).1, Rooted state.chart word.length item :=
      Worklist.close_induction _ (Rooted state.chart word.length) step _ _ _ _ queued
        (scanned_rooted agrees.charted byte)
    have result : itemsAt (closure order (state.pushed byte) (state.inputPos + 1)).chart
        (word.length + 1) = (loop (state.pushed byte).chart).1 := by
      rw [agrees.charted.position, closure_itemsAt order _ _ (by simp [pushed, agrees.charted.length]),
        here]
      simp only [pushed, agrees.charted.same, agrees.charted.index, loop]
    have result' : itemsAt (closure order (state'.pushed byte) (state.inputPos + 1)).chart
        (word.length + 1) = (loop (state'.pushed byte).chart).1 := by
      rw [agrees.charted.position, closure_itemsAt order _ _
        (by simp [pushed, agrees.charted'.length, agrees.length]), here']
      simp only [pushed, agrees.charted'.same, agrees.charted'.index, loop, ← agrees.moment]
    refine ⟨charted, charted', by simp [agrees.length], ?_, ?_⟩
    · have moments := congrArg Prod.snd equal
      simp only [loop, pushed] at moments
      simp only [closure, agrees.charted.position, agrees.charted.same,
        agrees.charted.index, agrees.charted'.same, agrees.charted'.index, pushed, ← agrees.moment]
      simp only [pushed] at here here'
      rw [here, here']
      exact moments
    · -- A new ancestor is the new position or an old ancestor.
      intro j ancestor
      rw [List.length_append, List.length_singleton] at ancestor
      have split : j = word.length + 1 ∨ Ancestor state.chart word.length j := by
        induction ancestor with
        | here => exact Or.inl rfl
        | @back j item _ member ih =>
            rcases ih with rfl | earlier
            · rw [result] at member
              exact rooted item member
            · rw [old j (earlier.le agrees.charted)] at member
              exact Or.inr (.back earlier member)
      rcases split with rfl | earlier
      · rw [result, result', equal]
      · have upper := earlier.le agrees.charted
        rw [old j upper, old' j (by rw [← agrees.length]; exact upper)]
        exact agrees.past j earlier

/-- Agreeing recognizers give the same answer to a byte slice. -/
theorem Agrees.feedBytes (order : HashOrder EarleyItem)
    (agrees : Agrees grammar word word' state state') (bytes : List UInt8) :
    (feedBytes order state bytes).2 = (feedBytes order state' bytes).2 := by
  induction bytes generalizing word word' state state' with
  | nil => rfl
  | cons byte rest ih =>
      obtain ⟨answer, later⟩ := agrees.feedByte order byte
      simp only [EarleyRecognizer.feedBytes]
      rw [← answer]
      split
      · rename_i accepted
        exact ih (later accepted)
      · rfl

end Pictor.EarleyRecognizer

namespace Pictor.GrammarConstraint
open EarleyRecognizer List

/-- The answer that a state gives to a token with these bytes. -/
def tokenFits (order : HashOrder EarleyItem) (state : EarleyRecognizer) (bytes : List UInt8) : Bool :=
  if bytes = [] then state.isAccepting else (feedBytes order state bytes).2

/-- The answer to a token is the same in every iteration order and at every moment. -/
def OrderFree (state : EarleyRecognizer) (bytes : List UInt8) : Prop :=
  ∀ order order' moment moment', tokenFits order { state with moment := moment } bytes =
    tokenFits order' { state with moment := moment' } bytes

/-- The bytes of a token in the index. -/
def bytesOf (constraint : GrammarConstraint) (token : Nat) : List UInt8 :=
  constraint.tokenBytes.getD token []

theorem advance_fst (order : HashOrder EarleyItem) (constraint : GrammarConstraint) (token : Nat) :
    (constraint.advance order token).1 = tokenFits order constraint.recognizer (constraint.bytesOf token) := by
  rw [advance, bytesOf, getD_eq_getElem?_getD]
  cases constraint.tokenBytes[token]? with
  | none => simp [tokenFits]
  | some bytes =>
      simp only [Option.getD_some, tokenFits]
      split <;> rfl

/-- A state whose every token has an order free answer. -/
def AnswersFree (vocabSize : Nat) (bytes : Nat → List UInt8) (state : EarleyRecognizer) : Prop :=
  ∀ token < vocabSize, OrderFree state (bytes token)

/-- A mask gives the answer to every token of the vocabulary. -/
def MaskExact (vocabSize : Nat) (bytes : Nat → List UInt8) (state : EarleyRecognizer)
    (mask : List Bool) : Prop :=
  mask.length = vocabSize ∧ ∀ token < vocabSize, ∀ order moment,
    mask[token]? = some (tokenFits order { state with moment := moment } (bytes token))

/-- A recognizer that answers a byte has it in its next byte set. -/
theorem mem_nextByteSet (order : HashOrder EarleyItem) (state : EarleyRecognizer) (byte : UInt8)
    (rest : List UInt8) (fits : (feedBytes order state (byte :: rest)).2 = true) : byte ∈ state.nextByteSet := by
  have accepted : state.scanned byte ≠ ∅ := by
    intro none
    rw [feedBytes, feedByte_eq, if_pos none] at fits
    exact Bool.false_ne_true fits
  obtain ⟨advanced, member⟩ := Finset.nonempty_iff_ne_empty.mpr accepted
  obtain ⟨item, present, _⟩ := Finset.mem_image.mp member
  obtain ⟨here, scan⟩ := Finset.mem_filter.mp present
  refine Finset.mem_biUnion.mpr ⟨item, here, ?_⟩
  rw [nextBytesOf, show state.grammar.nextSymbol item = some (.terminal [byte]) from scan]
  exact Finset.mem_singleton_self byte

/-- A dead state fits no token. -/
theorem tokenFits_dead (order : HashOrder EarleyItem) (state : EarleyRecognizer) (bytes : List UInt8)
    (dead : state.isLive = false) : tokenFits order state bytes = false := by
  have empty : state.current = ∅ := by simpa [isLive] using dead
  rw [tokenFits]
  split
  · simp [isAccepting, empty]
  · cases bytes with
    | nil => contradiction
    | cons byte rest =>
        have none : state.scanned byte = ∅ := by simp [scanned, empty]
        rw [feedBytes, feedByte_eq, if_pos none]
        rfl

/-- A state without a next byte that does not accept fits no token. -/
theorem tokenFits_blocked (order : HashOrder EarleyItem) (state : EarleyRecognizer)
    (bytes : List UInt8) (blocked : state.nextByteSet = ∅ ∧ state.isAccepting = false) :
    tokenFits order state bytes = false := by
  rw [tokenFits]
  split
  · exact blocked.2
  · cases bytes with
    | nil => contradiction
    | cons byte rest =>
        by_contra fits
        have member := mem_nextByteSet order state byte rest (by simpa using fits)
        rw [blocked.1] at member
        exact absurd member (Finset.notMem_empty byte)

/-- The index of a constraint is built from the decoder. -/
structure Indexed (decode : Nat → List UInt8) (vocabSize : Nat) (constraint : GrammarConstraint) :
    Prop where
  size : constraint.vocabSize = vocabSize
  bytes : ∀ token < vocabSize, constraint.bytesOf token = decode token
  first : ∀ byte token, token ∈ constraint.firstByteIndex byte ↔
    token < vocabSize ∧ (decode token).head? = some byte
  empty : ∀ token, token ∈ constraint.emptyTokenIds ↔ token < vocabSize ∧ decode token = []

theorem withCacheCapacity_indexed (order : HashOrder EarleyItem) (grammar : Grammar)
    (decode : Nat → List UInt8) (vocabSize capacity : Nat) (small : vocabSize < 2 ^ 32) :
    Indexed decode vocabSize (withCacheCapacity order grammar decode vocabSize capacity) := by
  have size : vocabSize % 4294967296 = vocabSize := Nat.mod_eq_of_lt small
  constructor
  · rfl
  · intro token inside
    simp [bytesOf, withCacheCapacity, getD_eq_getElem?_getD, size, inside]
  · intro byte token
    simp [withCacheCapacity, size]
  · intro token
    simp [withCacheCapacity, size]

section ComputeMask

variable (order : HashOrder EarleyItem) (byteOrder : HashOrder UInt8)
  {decode : Nat → List UInt8} {vocabSize : Nat} {constraint : GrammarConstraint}

/-- A probe marks the token if and only if it fits. -/
theorem probeToken_fst (indexed : Indexed decode vocabSize constraint)
    (free : AnswersFree vocabSize decode constraint.recognizer) (marked : List Bool × Nat)
    (token : Nat) (inside : token < vocabSize) :
    (probeToken order constraint vocabSize constraint.recognizer.isAccepting marked token).1 =
      if tokenFits order constraint.recognizer (decode token) then marked.1.set token true
      else marked.1 := by
  have same := free token inside order order marked.2 constraint.recognizer.moment
  rw [show ({ constraint.recognizer with moment := constraint.recognizer.moment } :
    EarleyRecognizer) = constraint.recognizer from rfl] at same
  have bytes : constraint.tokenBytes.getD token [] = decode token := indexed.bytes token inside
  rw [← same, probeToken, if_neg (Nat.not_le.mpr inside), bytes, tokenFits]
  by_cases none : decode token = []
  · rw [if_pos none, if_pos none]
    rfl
  · rw [if_neg none, if_neg none]

/-- The probes mark exactly the listed tokens that fit. -/
theorem foldl_probeToken (indexed : Indexed decode vocabSize constraint)
    (free : AnswersFree vocabSize decode constraint.recognizer) (ids : List Nat)
    (inside : ∀ id ∈ ids, id < vocabSize) (marked : List Bool × Nat)
    (length : marked.1.length = vocabSize) (token : Nat) (bound : token < vocabSize) :
    ((ids.foldl (probeToken order constraint vocabSize constraint.recognizer.isAccepting) marked).1)[token]? =
      some (marked.1.getD token false ||
        decide (token ∈ ids) && tokenFits order constraint.recognizer (decode token)) ∧
    (ids.foldl (probeToken order constraint vocabSize constraint.recognizer.isAccepting) marked).1.length =
      vocabSize := by
  induction ids generalizing marked with
  | nil =>
      have here : token < marked.1.length := by omega
      simp [getD_eq_getElem?_getD, getElem?_eq_getElem here, length]
  | cons id rest ih =>
      have probed := probeToken_fst order indexed free marked id (inside id mem_cons_self)
      rw [foldl_cons]
      have step := ih (fun id member => inside id (mem_cons_of_mem _ member))
        (probeToken order constraint vocabSize constraint.recognizer.isAccepting marked id) (by
          rw [probed]
          split <;> simp [length])
      refine ⟨?_, step.2⟩
      rw [step.1, probed]
      have here : token < marked.1.length := by omega
      by_cases same : token = id
      · subst same
        by_cases fits : tokenFits order constraint.recognizer (decode token) = true
        · simp [fits, getD_eq_getElem?_getD, here]
        · simp [fits]
      · split <;> simp [getD_eq_getElem?_getD, getElem?_set_ne (Ne.symm same), same]

/-- The loop over the empty tokens marks them. -/
theorem foldl_set (ids : List Nat) (mask : List Bool) (length : mask.length = vocabSize)
    (token : Nat) (bound : token < vocabSize) :
    ((ids.foldl (fun mask id => if id < vocabSize then mask.set id true else mask) mask)[token]?) =
      some (mask.getD token false || decide (token ∈ ids)) ∧
    (ids.foldl (fun mask id => if id < vocabSize then mask.set id true else mask) mask).length = vocabSize := by
  induction ids generalizing mask with
  | nil =>
      have here : token < mask.length := by omega
      simp [getD_eq_getElem?_getD, getElem?_eq_getElem here, length]
  | cons id rest ih =>
      rw [foldl_cons]
      have step := ih (if id < vocabSize then mask.set id true else mask) (by
        split <;> simp [length])
      refine ⟨?_, step.2⟩
      rw [step.1]
      have here : token < mask.length := by omega
      by_cases same : token = id
      · subst same
        simp [bound, getD_eq_getElem?_getD, here]
      · split <;> simp [getD_eq_getElem?_getD, getElem?_set_ne (Ne.symm same), same]

/-- A mask computed afresh gives the answer to every token. -/
theorem computeMask_exact (indexed : Indexed decode vocabSize constraint)
    (free : AnswersFree vocabSize decode constraint.recognizer) : MaskExact vocabSize decode constraint.recognizer
      (computeMask order byteOrder constraint vocabSize).1 := by
  let accepting := constraint.recognizer.isAccepting
  let ids := (byteOrder.iterate constraint.recognizer.moment
    constraint.recognizer.nextByteSet).flatMap constraint.firstByteIndex
  let blank := List.replicate vocabSize false
  let start := if accepting then constraint.emptyTokenIds.foldl
      (fun mask id => if id < vocabSize then mask.set id true else mask) blank
    else blank
  have inIds (token : Nat) : token ∈ ids ↔ token < vocabSize ∧
      ∃ byte ∈ constraint.recognizer.nextByteSet, (decode token).head? = some byte := by
    simp only [ids, mem_flatMap, HashOrder.mem, indexed.first]
    constructor
    · rintro ⟨byte, next, inside, head⟩
      exact ⟨inside, byte, next, head⟩
    · rintro ⟨inside, byte, next, head⟩
      exact ⟨byte, next, inside, head⟩
  have startSpec (token : Nat) (inside : token < vocabSize) :
      start[token]? = some (accepting && decide (decode token = [])) ∧ start.length = vocabSize := by
    have marked := foldl_set constraint.emptyTokenIds blank length_replicate token inside
    simp only [start]
    by_cases accepts : accepting = true
    · rw [if_pos accepts]
      refine ⟨?_, marked.2⟩
      rw [marked.1]
      simp [blank, getD_eq_getElem?_getD, inside, indexed.empty, accepts]
    · rw [if_neg accepts]
      simp [blank, inside, accepts]
  have startLength : start.length = vocabSize := by
    rcases Nat.eq_zero_or_pos vocabSize with zero | positive
    · simp only [start]
      split
      · have untouched : constraint.emptyTokenIds = [] := eq_nil_iff_forall_not_mem.mpr
          fun token member => by
            have bound := ((indexed.empty token).mp member).1
            omega
        simp [untouched, blank]
      · simp [blank]
    · exact (startSpec 0 positive).2
  have probes (token : Nat) (inside : token < vocabSize) := foldl_probeToken order indexed free ids
    (fun id member => ((inIds id).mp member).1) (start, constraint.recognizer.moment) startLength
    token inside
  constructor
  · rcases Nat.eq_zero_or_pos vocabSize with zero | positive
    · have none : ids = [] := eq_nil_iff_forall_not_mem.mpr fun token member => by
        have bound := ((inIds token).mp member).1
        omega
      change (ids.foldl (probeToken order constraint vocabSize accepting) (start, _)).1.length = _
      rw [none]
      exact startLength
    · exact (probes 0 positive).2
  · intro token inside order' moment'
    have answer := (probes token inside).1
    have fresh := free token inside order order' constraint.recognizer.moment moment'
    rw [← fresh]
    refine answer.trans (congrArg some ?_)
    rw [getD_eq_getElem?_getD, (startSpec token inside).1, Option.getD_some]
    change (accepting && _ || _ && tokenFits order constraint.recognizer (decode token)) =
      tokenFits order constraint.recognizer (decode token)
    by_cases none : decode token = []
    · -- A token without bytes fits exactly in an accepting state.
      have absent : token ∉ ids := fun member => by
        obtain ⟨_, byte, _, head⟩ := (inIds token).mp member
        rw [none] at head
        exact absurd head (by simp)
      rw [decide_eq_true none, decide_eq_false absent, tokenFits, if_pos none]
      simp [accepting]
    · -- A token that fits starts with a byte of the next byte set.
      rw [decide_eq_false none, Bool.and_false, Bool.false_or, Bool.and_eq_right_iff_imp,
        decide_eq_true_eq]
      intro fits
      obtain ⟨byte, rest, split⟩ := exists_cons_of_ne_nil none
      rw [split, tokenFits, if_neg (cons_ne_nil byte rest)] at fits
      exact (inIds token).mpr ⟨inside, byte, mem_nextByteSet order _ byte rest fits, by rw [split]; rfl⟩

end ComputeMask

end Pictor.GrammarConstraint
