import Mathlib.Tactic
import Pictor.Construction.Grammar.Earley

namespace Pictor
open List

/-- The part of a word between two positions. -/
def wordPart (word : List UInt8) (first last : Nat) : List UInt8 := (word.take last).drop first

/-- Adjacent parts join to one part. -/
theorem wordPart_append (word : List UInt8) (first middle last : Nat)
    (lower : first ≤ middle) (upper : middle ≤ last) :
    wordPart word first middle ++ wordPart word middle last = wordPart word first last := by
  apply ext_getElem?
  intro position
  unfold wordPart
  grind

@[simp] theorem wordPart_self (word : List UInt8) (position : Nat) : wordPart word position position = [] := by
  unfold wordPart
  grind

/-- One more byte extends a part. -/
theorem wordPart_succ (word : List UInt8) (first last : Nat) (byte : UInt8)
    (next : word[last]? = some byte) (lower : first ≤ last) :
    wordPart word first (last + 1) = wordPart word first last ++ [byte] := by
  have inside : last < word.length := (List.getElem?_eq_some_iff.mp next).1
  rw [wordPart, take_add_one, next, Option.toList_some, drop_append_of_le_length, wordPart]
  rw [length_take]
  omega

@[simp] theorem wordPart_whole (word : List UInt8) : wordPart word 0 word.length = word := by
  simp [wordPart]

/-- The items that Earley's rules justify at each position of a word. -/
inductive EarleyValid (grammar : Grammar) (word : List UInt8) : Nat → EarleyItem → Prop
  | start {rule : RuleId} :
      rule < grammar.rules.length → (grammar.ruleAt rule).lhs = grammar.start →
      EarleyValid grammar word 0 ⟨rule, 0, 0⟩
  | predict {k : Nat} {item : EarleyItem} {rule : RuleId} :
      EarleyValid grammar word k item → rule < grammar.rules.length →
      grammar.nextSymbol item = some (.nonTerminal (grammar.ruleAt rule).lhs) →
      EarleyValid grammar word k ⟨rule, 0, k⟩
  | empty {k : Nat} {item : EarleyItem} :
      EarleyValid grammar word k item → grammar.nextSymbol item = some (.terminal []) →
      EarleyValid grammar word k item.advanced
  | scan {k : Nat} {item : EarleyItem} {byte : UInt8} :
      EarleyValid grammar word k item → grammar.nextSymbol item = some (.terminal [byte]) →
      word[k]? = some byte → EarleyValid grammar word (k + 1) item.advanced
  | complete {k : Nat} {item done : EarleyItem} :
      EarleyValid grammar word k done → grammar.nextSymbol done = none →
      EarleyValid grammar word done.origin item →
      grammar.nextSymbol item = some (.nonTerminal (grammar.ruleAt done.rule).lhs) →
      EarleyValid grammar word k item.advanced

namespace EarleyValid

variable {grammar : Grammar} {word : List UInt8} {k : Nat} {item : EarleyItem}

/-- A longer word keeps every justified item. -/
theorem mono (valid : EarleyValid grammar word k item) (suffix : List UInt8) :
    EarleyValid grammar (word ++ suffix) k item := by
  induction valid with
  | start inside lhs => exact .start inside lhs
  | predict _ inside next ih => exact .predict ih inside next
  | empty _ next ih => exact .empty ih next
  | scan _ next byte ih =>
      refine .scan ih next ?_
      rw [getElem?_append_left (List.getElem?_eq_some_iff.mp byte).1, byte]
  | complete _ finished _ next doneValid itemValid =>
      exact .complete doneValid finished itemValid next

/-- An item starts at or before its position, its rule exists, and its dot is inside the rule. -/
theorem bounds (valid : EarleyValid grammar word k item) : item.origin ≤ k ∧ item.rule < grammar.rules.length ∧
      item.dot ≤ (grammar.ruleAt item.rule).rhs.length := by
  induction valid with
  | start bound _ => exact ⟨Nat.le_refl 0, bound, Nat.zero_le _⟩
  | predict _ bound _ _ => exact ⟨Nat.le_refl _, bound, Nat.zero_le _⟩
  | empty _ next ih => exact ⟨ih.1, ih.2.1, (List.getElem?_eq_some_iff.mp next).1⟩
  | scan _ next _ ih => exact ⟨Nat.le_succ_of_le ih.1, ih.2.1, (List.getElem?_eq_some_iff.mp next).1⟩
  | complete _ _ _ next doneBound itemBound =>
      exact ⟨itemBound.1.trans doneBound.1, itemBound.2.1, (List.getElem?_eq_some_iff.mp next).1⟩

end EarleyValid

/-- The symbols before the dot grow by the symbol that the dot passes. -/
theorem take_advanced (grammar : Grammar) (item : EarleyItem) (symbol : Symbol)
    (next : grammar.nextSymbol item = some symbol) : (grammar.ruleAt item.advanced.rule).rhs.take item.advanced.dot =
      (grammar.ruleAt item.rule).rhs.take item.dot ++ [symbol] := by
  rw [EarleyItem.advanced_dot, EarleyItem.advanced_rule, take_add_one, show (grammar.ruleAt item.rule).rhs[item.dot]? =
    some symbol from next, Option.toList_some]

/-- A complete item has its whole right-hand side before the dot. -/
theorem take_complete (grammar : Grammar) (item : EarleyItem) (finished : grammar.nextSymbol item = none) :
    (grammar.ruleAt item.rule).rhs.take item.dot = (grammar.ruleAt item.rule).rhs :=
  take_of_length_le (List.getElem?_eq_none_iff.mp finished)

variable {item : EarleyItem}

/-- The symbols before the dot derive the part of the word that the item covers. -/
theorem EarleyValid.derives {grammar : Grammar} {word : List UInt8} {k : Nat} (valid : EarleyValid grammar word k item) :
    grammar.Derives ((grammar.ruleAt item.rule).rhs.take item.dot) (wordPart word item.origin k) := by
  induction valid with
  | start => simpa using Grammar.Derives.nil
  | predict => simpa using Grammar.Derives.nil
  | empty _ next ih =>
      rw [take_advanced grammar _ _ next]
      have joined := ih.append (Grammar.Derives.bytes [])
      simpa using joined
  | @scan _ _ symbol earlier next byte ih =>
      rw [take_advanced grammar _ _ next]
      have joined := ih.append (Grammar.Derives.bytes [symbol])
      rw [EarleyItem.advanced_origin, wordPart_succ word _ _ _ byte earlier.bounds.1]
      simpa using joined
  | complete doneValid finished itemValid next doneDerives itemDerives =>
      rw [take_advanced grammar _ _ next]
      rw [take_complete grammar _ finished] at doneDerives
      have inner := Grammar.Derives.rule (grammar.ruleAt_mem _ doneValid.bounds.2.1) doneDerives
      have joined := itemDerives.append inner
      rwa [wordPart_append word _ _ _ itemValid.bounds.1 doneValid.bounds.1] at joined

/-- A completed start item that covers the word is a derivation of the word. -/
theorem EarleyValid.generates {grammar : Grammar} {word : List UInt8}
    (valid : EarleyValid grammar word word.length item) (fromZero : item.origin = 0)
    (lhs : (grammar.ruleAt item.rule).lhs = grammar.start) (finished : grammar.nextSymbol item = none) :
    grammar.Generates word := by
  have inner := valid.derives
  rw [take_complete grammar item finished, fromZero, wordPart_whole] at inner
  have outer := Grammar.Derives.rule (grammar.ruleAt_mem _ valid.bounds.2.1) inner
  rwa [lhs] at outer

/-- A derivation of the symbols after the dot carries a justified item over the derived part. -/
theorem EarleyValid.advance {grammar : Grammar} (short : ∀ rule ∈ grammar.rules, ∀ bytes,
      Symbol.terminal bytes ∈ rule.rhs → bytes.length ≤ 1) {word : List UInt8}
    {symbols : List Symbol} {part : List UInt8} (derived : grammar.Derives symbols part) :
    ∀ {k : Nat} {item : EarleyItem} {rest : List Symbol}, EarleyValid grammar word k item →
      (grammar.ruleAt item.rule).rhs.drop item.dot = symbols ++ rest → part <+: word.drop k →
      EarleyValid grammar word (k + part.length) { item with dot := item.dot + symbols.length } := by
  induction derived with
  | nil => intro k item rest valid _ _; simpa using valid
  | @terminal bytes symbols part inner ih =>
      intro k item rest valid after prefixed
      have next : grammar.nextSymbol item = some (.terminal bytes) := by
        have head := congrArg List.head? after
        simpa [Grammar.nextSymbol, head?_drop] using head
      have later : (grammar.ruleAt item.rule).rhs.drop (item.dot + 1) = symbols ++ rest := by
        rw [← tail_drop, after]
        rfl
      have member : Symbol.terminal bytes ∈ (grammar.ruleAt item.rule).rhs :=
        mem_of_getElem? next
      have length := short _ (grammar.ruleAt_mem _ valid.bounds.2.1) bytes member
      rcases bytes with _ | ⟨byte, _ | ⟨_, _⟩⟩
      · have moved := ih (valid.empty next) later prefixed
        simpa [EarleyItem.advanced, Nat.add_assoc, Nat.add_comm 1] using moved
      · obtain ⟨tail, split⟩ := prefixed
        have here : word[k]? = some byte := by
          have head := congrArg List.head? split
          simpa [head?_drop] using head.symm
        have rest' : part <+: word.drop (k + 1) := by
          rw [← tail_drop, ← split]
          exact ⟨tail, rfl⟩
        have moved := ih (valid.scan next here) later rest'
        simpa [EarleyItem.advanced, Nat.add_assoc, Nat.add_comm 1] using moved
      · simp at length
  | @nonTerminal rule symbols first second member inner outer innerStep outerStep =>
      intro k item rest valid after prefixed
      have next : grammar.nextSymbol item = some (.nonTerminal rule.lhs) := by
        have head := congrArg List.head? after
        simpa [Grammar.nextSymbol, head?_drop] using head
      have later : (grammar.ruleAt item.rule).rhs.drop (item.dot + 1) = symbols ++ rest := by
        rw [← tail_drop, after]
        rfl
      obtain ⟨tail, split⟩ := prefixed
      obtain ⟨id, inside, atId⟩ := grammar.exists_ruleAt member
      -- The rule of the non-terminal is predicted here and completed after its part.
      have predicted : EarleyValid grammar word k ⟨id, 0, k⟩ :=
        valid.predict inside (by rw [atId]; exact next)
      have whole : (grammar.ruleAt id).rhs.drop 0 = rule.rhs ++ [] := by simp [atId]
      have completed := innerStep predicted whole
        ⟨second ++ tail, by rw [← split, append_assoc]⟩
      have finished : grammar.nextSymbol ⟨id, 0 + rule.rhs.length, k⟩ = none := by
        simp [Grammar.nextSymbol, atId]
      have moved := EarleyValid.complete completed finished valid (by simpa [atId] using next)
      have remaining : second <+: word.drop (k + first.length) := by
        rw [← drop_drop, ← split, append_assoc, drop_left]
        exact ⟨tail, rfl⟩
      have final := outerStep moved later remaining
      simpa [EarleyItem.advanced, Nat.add_assoc, Nat.add_comm 1] using final

/-- A derivation of the word justifies a completed start item that covers the word. -/
theorem EarleyValid.of_generates {grammar : Grammar} (short : ∀ rule ∈ grammar.rules, ∀ bytes,
      Symbol.terminal bytes ∈ rule.rhs → bytes.length ≤ 1) {word : List UInt8} (generated : grammar.Generates word) :
    ∃ id, id < grammar.rules.length ∧ (grammar.ruleAt id).lhs = grammar.start ∧
      EarleyValid grammar word word.length ⟨id, (grammar.ruleAt id).rhs.length, 0⟩ := by
  unfold Grammar.Generates at generated
  generalize symbols : [Symbol.nonTerminal grammar.start] = root at generated
  cases generated with
  | nil => simp at symbols
  | terminal => simp at symbols
  | @nonTerminal rule rest first second member inner outer =>
      simp only [List.cons.injEq, Symbol.nonTerminal.injEq] at symbols
      obtain ⟨lhs, rfl⟩ := symbols
      cases outer
      obtain ⟨id, inside, atId⟩ := grammar.exists_ruleAt member
      have begun : EarleyValid grammar (first ++ []) 0 ⟨id, 0, 0⟩ :=
        .start inside (by rw [atId, lhs])
      have whole : (grammar.ruleAt id).rhs.drop 0 = rule.rhs ++ [] := by simp [atId]
      have moved := EarleyValid.advance short inner begun whole ⟨[], by simp⟩
      refine ⟨id, inside, by rw [atId, lhs], ?_⟩
      simpa [atId] using moved

end Pictor

namespace Pictor.EarleyRecognizer
open List

/-- The items whose rule, dot and origin are in range at position `k`. -/
def itemSpace (grammar : Grammar) (k : Nat) : Finset EarleyItem :=
  ((Finset.range grammar.rules.length ×ˢ Finset.range (maxRhs grammar + 1)) ×ˢ
    Finset.range (k + 1)).image fun part => ⟨part.1.1, part.1.2, part.2⟩

/-- The closure has fuel for every item in range. -/
theorem itemSpace_card (grammar : Grammar) (k : Nat) : (itemSpace grammar k).card ≤ itemCount grammar k := by
  refine Finset.card_image_le.trans ?_
  simp [itemCount, Finset.card_product]

/-- No right-hand side is longer than the greatest length. -/
theorem length_le_maxRhs (grammar : Grammar) (rule : Rule) (member : rule ∈ grammar.rules) :
    rule.rhs.length ≤ maxRhs grammar := by
  unfold maxRhs
  generalize grammar.rules = rules at member ⊢
  induction rules with
  | nil => exact absurd member not_mem_nil
  | cons first rest ih =>
      rw [map_cons, foldr_cons]
      rcases mem_cons.mp member with rfl | later
      · exact Nat.le_max_left _ _
      · exact (ih later).trans (Nat.le_max_right _ _)

/-- An item with an existing rule and a dot inside the rule is in range. -/
theorem mem_itemSpace (grammar : Grammar) (k : Nat) (item : EarleyItem) (rule : item.rule < grammar.rules.length)
    (dot : item.dot ≤ (grammar.ruleAt item.rule).rhs.length) (origin : item.origin ≤ k) :
    item ∈ itemSpace grammar k := by
  have short := length_le_maxRhs grammar _ (grammar.ruleAt_mem item.rule rule)
  simp only [itemSpace, Finset.mem_image, Finset.mem_product, Finset.mem_range, Prod.exists]
  exact ⟨item.rule, item.dot, item.origin, ⟨⟨rule, by omega⟩, by omega⟩, rfl⟩

theorem EarleyValid.inSpace {grammar : Grammar} {word : List UInt8} {j k : Nat} {item : EarleyItem}
    (valid : EarleyValid grammar word j item) (upper : j ≤ k) : item ∈ itemSpace grammar k :=
  mem_itemSpace grammar k item valid.bounds.2.1 valid.bounds.2.2 (valid.bounds.1.trans upper)

/-- The rule index lists the rules of a non-terminal. -/
theorem mem_buildRuleIndex (grammar : Grammar) (nt : NonTerminalId) (id : RuleId) : id ∈ buildRuleIndex grammar nt ↔
      id < grammar.rules.length ∧ (grammar.ruleAt id).lhs = nt := by
  simp [buildRuleIndex]

section Closure

variable (order : HashOrder EarleyItem) (grammar : Grammar) (chart : List (Finset EarleyItem))
  (k moment : Nat) (current : Finset EarleyItem)

/-- A complete item advances the items of its origin that wait for its non-terminal. -/
theorem mem_candidates_complete (item next : EarleyItem) (finished : grammar.nextSymbol item = none) :
    next ∈ candidates order grammar (buildRuleIndex grammar) chart k moment current item ↔
      ∃ waiting ∈ if item.origin = k then current else itemsAt chart item.origin,
        grammar.nextSymbol waiting = some (.nonTerminal (grammar.ruleAt item.rule).lhs) ∧
          waiting.advanced = next := by
  simp only [candidates, finished, mem_filterMap, HashOrder.mem, advancedOver,
    Option.ite_none_right_eq_some, Option.some.injEq]

/-- An item before a non-terminal predicts the rules of the non-terminal. -/
theorem mem_candidates_predict (item next : EarleyItem) (nt : NonTerminalId)
    (before : grammar.nextSymbol item = some (.nonTerminal nt)) :
    next ∈ candidates order grammar (buildRuleIndex grammar) chart k moment current item ↔
      ∃ id, id < grammar.rules.length ∧ (grammar.ruleAt id).lhs = nt ∧ ⟨id, 0, k⟩ = next := by
  simp only [candidates, before, mem_map, mem_buildRuleIndex, and_assoc]

/-- An item before a terminal advances only over an empty terminal. -/
theorem mem_candidates_terminal (item next : EarleyItem) (bytes : List UInt8)
    (before : grammar.nextSymbol item = some (.terminal bytes)) :
    next ∈ candidates order grammar (buildRuleIndex grammar) chart k moment current item ↔
      bytes = [] ∧ item.advanced = next := by
  simp only [candidates, before]
  split <;> simp_all [eq_comm]

/-- The candidates of justified items are justified. -/
theorem candidates_valid (word : List UInt8)
    (sound : ∀ j item, item ∈ itemsAt chart j → EarleyValid grammar word j item)
    (currentSound : ∀ item ∈ current, EarleyValid grammar word k item) (item : EarleyItem) (member : item ∈ current) :
    ∀ next ∈ candidates order grammar (buildRuleIndex grammar) chart k moment current item,
      EarleyValid grammar word k next := by
  intro next candidate
  have valid := currentSound item member
  cases symbol : grammar.nextSymbol item with
  | none =>
      obtain ⟨waiting, here, before, rfl⟩ :=
        (mem_candidates_complete order grammar chart k moment current item next symbol).mp candidate
      refine .complete valid symbol ?_ before
      split at here
      · rename_i same
        rw [same]
        exact currentSound waiting here
      · exact sound item.origin waiting here
  | some symbol' =>
      cases symbol' with
      | nonTerminal nt =>
          obtain ⟨id, inside, lhs, rfl⟩ :=
            (mem_candidates_predict order grammar chart k moment current item next nt symbol).mp
              candidate
          exact .predict valid inside (by rw [lhs]; exact symbol)
      | terminal bytes =>
          obtain ⟨rfl, rfl⟩ :=
            (mem_candidates_terminal order grammar chart k moment current item next bytes symbol).mp
              candidate
          exact .empty valid symbol

end Closure

/-- Every item of a position has its predictions, its empty steps and its completions over earlier
positions in the same set. -/
structure Saturated (grammar : Grammar) (chart : List (Finset EarleyItem)) (k : Nat) : Prop where
  predict : ∀ item ∈ itemsAt chart k, ∀ id, id < grammar.rules.length →
    grammar.nextSymbol item = some (.nonTerminal (grammar.ruleAt id).lhs) →
    ⟨id, 0, k⟩ ∈ itemsAt chart k
  empty : ∀ item ∈ itemsAt chart k, grammar.nextSymbol item = some (.terminal []) →
    item.advanced ∈ itemsAt chart k
  complete : ∀ done ∈ itemsAt chart k, done.origin ≠ k → grammar.nextSymbol done = none →
    ∀ item ∈ itemsAt chart done.origin,
      grammar.nextSymbol item = some (.nonTerminal (grammar.ruleAt done.rule).lhs) →
      item.advanced ∈ itemsAt chart k

/-- Only the sets at the positions that a saturation reads matter. -/
theorem Saturated.congr {grammar : Grammar} {chart chart' : List (Finset EarleyItem)} {k : Nat}
    (saturated : Saturated grammar chart k) (same : itemsAt chart' k = itemsAt chart k)
    (before : ∀ done ∈ itemsAt chart k, itemsAt chart' done.origin = itemsAt chart done.origin) :
    Saturated grammar chart' k where
  predict item member := by
    rw [same] at member ⊢
    exact saturated.predict item member
  empty item member := by
    rw [same] at member ⊢
    exact saturated.empty item member
  complete done member := by
    rw [same] at member ⊢
    rw [before done member]
    exact saturated.complete done member

section ClosureSpec

variable (order : HashOrder EarleyItem) (state : EarleyRecognizer) (k : Nat)

@[simp] theorem closure_chart_length : (closure order state k).chart.length = state.chart.length := by
  simp [closure]

/-- The closure changes one position. -/
theorem closure_itemsAt_other (j : Nat) (other : j ≠ k) :
    itemsAt (closure order state k).chart j = itemsAt state.chart j := by
  simp [itemsAt, closure, getD_eq_getElem?_getD, getElem?_set_ne (Ne.symm other)]

/-- The loop result is the new set. -/
theorem closure_itemsAt (inside : k < state.chart.length) : itemsAt (closure order state k).chart k =
      (Worklist.close (candidates order state.grammar state.ruleIndex state.chart k)
        (itemCount state.grammar k) (state.moment + 1) (itemsAt state.chart k)
        (order.iterate state.moment (itemsAt state.chart k))).1 := by
  simp [itemsAt, closure, getD_eq_getElem?_getD, inside]

variable (word : List UInt8) (index : state.ruleIndex = buildRuleIndex state.grammar)
  (inside : k < state.chart.length)
  (sound : ∀ j item, item ∈ itemsAt state.chart j → EarleyValid state.grammar word j item)

/-- The closure keeps the items of the set. -/
theorem subset_closure (inside : k < state.chart.length) :
    itemsAt state.chart k ⊆ itemsAt (closure order state k).chart k := by
  rw [closure_itemsAt order state k inside]
  exact Worklist.subset_close _ _ _ _ _

include index inside sound in
/-- The closure adds only justified items. -/
theorem closure_valid : ∀ j item, item ∈ itemsAt (closure order state k).chart j →
    EarleyValid state.grammar word j item := by
  intro j item member
  by_cases here : j = k
  · subst here
    rw [closure_itemsAt order state j inside, index] at member
    refine Worklist.close_induction _ (EarleyValid state.grammar word j) ?_ _ _ _ _ ?_ ?_ item member
    · intro moment current item currentSound popped
      exact candidates_valid order state.grammar state.chart j moment current word sound
        currentSound item popped
    · intro item queued
      exact (order.mem _ _ _).mp queued
    · exact sound j
  · rw [closure_itemsAt_other order state k j here] at member
    exact sound j item member

include index inside sound in
/-- The closure processes every item of the new set. -/
theorem closure_processed (upper : ∀ j, k < j → itemsAt state.chart j = ∅) :
    ∀ item ∈ itemsAt (closure order state k).chart k, ∃ moment current, item ∈ current ∧
      ∀ next ∈ candidates order state.grammar (buildRuleIndex state.grammar) state.chart k moment
        current item, next ∈ itemsAt (closure order state k).chart k := by
  intro item member
  rw [closure_itemsAt order state k inside, index] at member ⊢
  have processed := Worklist.close_processed
    (candidates order state.grammar (buildRuleIndex state.grammar) state.chart k)
    (itemSpace state.grammar k) ?_ (itemCount state.grammar k) (state.moment + 1)
    (itemsAt state.chart k) (order.iterate state.moment (itemsAt state.chart k)) ?_ ?_ ?_ item member ?_
  · obtain ⟨moment, current, _, popped, closed⟩ := processed
    exact ⟨moment, current, popped, closed⟩
  · -- The candidates stay in range: a rule of the index, or one step of an item in range.
    intro moment current item within popped next candidate
    have inRange : ∀ waiting : EarleyItem, waiting ∈ itemSpace state.grammar k →
        state.grammar.nextSymbol waiting ≠ none → waiting.advanced ∈ itemSpace state.grammar k := by
      intro waiting range before
      simp only [itemSpace, Finset.mem_image, Finset.mem_product, Finset.mem_range, Prod.exists] at range
      obtain ⟨rule, dot, origin, ⟨⟨ruleBound, _⟩, originBound⟩, rfl⟩ := range
      refine mem_itemSpace _ _ _ ruleBound ?_ (Nat.le_of_lt_succ originBound)
      have dotBound : dot < (state.grammar.ruleAt rule).rhs.length := by
        by_contra outside
        exact before (List.getElem?_eq_none_iff.mpr (Nat.le_of_not_gt outside))
      exact dotBound
    cases symbol : state.grammar.nextSymbol item with
    | none =>
        obtain ⟨waiting, here, before, rfl⟩ := (mem_candidates_complete order state.grammar
          state.chart k moment current item next symbol).mp candidate
        refine inRange waiting ?_ (by rw [before]; exact Option.some_ne_none _)
        split at here
        · exact within here
        · by_cases late : item.origin ≤ k
          · exact EarleyValid.inSpace (sound item.origin waiting here) late
          · rw [upper item.origin (Nat.lt_of_not_ge late)] at here
            exact absurd here (Finset.notMem_empty _)
    | some symbol' =>
        cases symbol' with
        | nonTerminal nt =>
            obtain ⟨id, bound, _, rfl⟩ := (mem_candidates_predict order state.grammar
              state.chart k moment current item next nt symbol).mp candidate
            exact mem_itemSpace _ _ _ bound (Nat.zero_le _) (Nat.le_refl k)
        | terminal bytes =>
            obtain ⟨_, rfl⟩ := (mem_candidates_terminal order state.grammar
              state.chart k moment current item next bytes symbol).mp candidate
            exact inRange item (within popped) (by rw [symbol]; exact Option.some_ne_none _)
  · intro item queued
    exact (order.mem _ _ _).mp queued
  · intro item seed
    exact EarleyValid.inSpace (sound k item seed) (Nat.le_refl k)
  · rw [HashOrder.iterate_length]
    have bound := itemSpace_card state.grammar k
    omega
  · by_cases seed : item ∈ itemsAt state.chart k
    · exact Or.inl ((order.mem _ _ _).mpr seed)
    · exact Or.inr seed

include index inside sound in
/-- The closure saturates its position. -/
theorem closure_saturated (upper : ∀ j, k < j → itemsAt state.chart j = ∅) :
    Saturated state.grammar (closure order state k).chart k := by
  have processed := closure_processed order state k word index inside sound upper
  refine ⟨fun item member id bound before => ?_, fun item member before => ?_,
    fun done member earlier finished item waiting before => ?_⟩
  · obtain ⟨moment, current, _, closed⟩ := processed item member
    exact closed _ ((mem_candidates_predict order state.grammar state.chart k moment current item _ _
      before).mpr ⟨id, bound, rfl, rfl⟩)
  · obtain ⟨moment, current, _, closed⟩ := processed item member
    exact closed _ ((mem_candidates_terminal order state.grammar state.chart k moment current item _ _
      before).mpr ⟨rfl, rfl⟩)
  · obtain ⟨moment, current, _, closed⟩ := processed done member
    rw [closure_itemsAt_other order state k _ earlier] at waiting
    refine closed _ ((mem_candidates_complete order state.grammar state.chart k moment current done _
      finished).mpr ⟨item, ?_, before, rfl⟩)
    rwa [if_neg earlier]

end ClosureSpec

end Pictor.EarleyRecognizer
