import Pictor.Proof.Grammar.EarleyItems

namespace Pictor.EarleyRecognizer
open List

/-- A set is closed under completions of empty matches: an item that waits for a non-terminal which
is complete with origin at this very position has its advance in the set. -/
def NullClosed (grammar : Grammar) (items : Finset EarleyItem) (k : Nat) : Prop :=
  ∀ done ∈ items, done.origin = k → grammar.nextSymbol done = none →
    ∀ item ∈ items, grammar.nextSymbol item = some (.nonTerminal (grammar.ruleAt done.rule).lhs) →
      item.advanced ∈ items

instance (grammar : Grammar) (items : Finset EarleyItem) (k : Nat) :
    Decidable (NullClosed grammar items k) := by
  unfold NullClosed
  infer_instance

/-- The chart after a word: sound, saturated at each position, and linked by the scans. -/
structure Charted (grammar : Grammar) (word : List UInt8) (state : EarleyRecognizer) : Prop where
  same : state.grammar = grammar
  index : state.ruleIndex = buildRuleIndex grammar
  position : state.inputPos = word.length
  length : state.chart.length = word.length + 1
  sound : ∀ k item, item ∈ itemsAt state.chart k → EarleyValid grammar word k item
  saturated : ∀ k, Saturated grammar state.chart k
  started : ∀ id, id < grammar.rules.length → (grammar.ruleAt id).lhs = grammar.start →
    ⟨id, 0, 0⟩ ∈ itemsAt state.chart 0
  scanned : ∀ k byte, word[k]? = some byte → ∀ item ∈ itemsAt state.chart k,
    grammar.nextSymbol item = some (.terminal [byte]) → item.advanced ∈ itemsAt state.chart (k + 1)

variable (order : HashOrder EarleyItem) {grammar : Grammar} {word : List UInt8}
  {state : EarleyRecognizer}

/-- Positions after the input hold nothing. -/
theorem itemsAt_beyond (chart : List (Finset EarleyItem)) (k : Nat) (outside : chart.length ≤ k) :
    itemsAt chart k = ∅ := by
  rw [itemsAt, getD_eq_getElem?_getD, getElem?_eq_none outside, Option.getD_none]

/-- An empty set is saturated. -/
theorem Saturated.of_empty {chart : List (Finset EarleyItem)} {k : Nat}
    (none : itemsAt chart k = ∅) : Saturated grammar chart k where
  predict item member := absurd (none ▸ member) (Finset.notMem_empty item)
  empty item member := absurd (none ▸ member) (Finset.notMem_empty item)
  complete item member := absurd (none ▸ member) (Finset.notMem_empty item)

/-- The initial closure gives the chart of the empty word. -/
theorem initChartZero_charted (state : EarleyRecognizer)
    (index : state.ruleIndex = buildRuleIndex state.grammar) (empty : state.chart = [∅])
    (start : state.inputPos = 0) : Charted state.grammar [] (initChartZero order state) := by
  let items := (state.ruleIndex state.grammar.start).map fun rule => (⟨rule, 0, 0⟩ : EarleyItem)
  let seeded := { state with chart := state.chart.modify 0 (· ∪ items.toFinset) }
  have seeds : itemsAt seeded.chart 0 = items.toFinset := by
    simp [seeded, empty, itemsAt]
  have length : seeded.chart.length = 1 := by simp [seeded, empty]
  have inside : 0 < seeded.chart.length := by omega
  have beyond : ∀ j, 0 < j → itemsAt seeded.chart j = ∅ :=
    fun j later => itemsAt_beyond _ _ (by omega)
  have member (id : RuleId) : ⟨id, 0, 0⟩ ∈ items.toFinset ↔
      id < state.grammar.rules.length ∧ (state.grammar.ruleAt id).lhs = state.grammar.start := by
    simp [items, index, mem_buildRuleIndex]
  have sound : ∀ j item, item ∈ itemsAt seeded.chart j →
      EarleyValid seeded.grammar [] j item := by
    intro j item present
    rcases Nat.eq_zero_or_pos j with rfl | later
    · rw [seeds] at present
      obtain ⟨id, _, rfl⟩ := mem_map.mp (mem_toFinset.mp present)
      obtain ⟨bound, lhs⟩ := (member id).mp present
      exact .start bound lhs
    · rw [beyond j later] at present
      exact absurd present (Finset.notMem_empty _)
  have closed : ∀ k, k ≠ 0 → itemsAt (closure order seeded 0).chart k = ∅ := by
    intro k later
    rw [closure_itemsAt_other order seeded 0 k later, beyond k (Nat.pos_of_ne_zero later)]
  exact {
    same := rfl
    index := index
    position := start
    length := by rw [show (initChartZero order state) = closure order seeded 0 from rfl,
      closure_chart_length, length]; rfl
    sound := closure_valid order seeded 0 [] index inside sound
    saturated := fun k => by
      by_cases here : k = 0
      · subst here
        exact closure_saturated order seeded 0 [] index inside sound beyond
      · exact .of_empty (closed k here)
    started := fun id bound lhs => by
      apply subset_closure order seeded 0 inside
      rw [seeds]
      exact (member id).mpr ⟨bound, lhs⟩
    scanned := fun k byte here => by simp at here }

theorem new_charted (grammar : Grammar) : Charted grammar [] (new order grammar) := by
  let blank : EarleyRecognizer :=
    ⟨grammar, FirstSets.compute grammar, [∅], 0, buildRuleIndex grammar, 0⟩
  exact initChartZero_charted order blank rfl rfl rfl

theorem reset_charted (charted : Charted grammar word state) : Charted grammar [] (reset order state) := by
  obtain rfl := charted.same
  exact initChartZero_charted order { state with chart := [∅], inputPos := 0 } charted.index rfl rfl

/-- The new set of a fed byte is the scanned set before its closure. -/
theorem scanned_valid (charted : Charted grammar word state) (byte : UInt8) (item : EarleyItem)
    (member : item ∈ state.scanned byte) : EarleyValid grammar (word ++ [byte]) (word.length + 1) item := by
  simp only [EarleyRecognizer.scanned, current, Finset.mem_image, Finset.mem_filter, scans,
    charted.same, charted.position] at member
  obtain ⟨earlier, ⟨present, next⟩, rfl⟩ := member
  exact .scan ((charted.sound _ _ present).mono [byte]) next (by simp)

/-- The state with the scanned set at its new last position. -/
def pushed (state : EarleyRecognizer) (byte : UInt8) : EarleyRecognizer :=
  { state with chart := state.chart ++ [state.scanned byte], inputPos := state.inputPos + 1 }

/-- The closure runs only on a set that is not empty. -/
theorem feedByte_eq (state : EarleyRecognizer) (byte : UInt8) : feedByte order state byte =
      if state.scanned byte = ∅ then (state.pushed byte, false)
      else (closure order (state.pushed byte) (state.inputPos + 1), true) := rfl

/-- Earlier positions keep their sets. -/
theorem pushed_itemsAt_old (state : EarleyRecognizer) (byte : UInt8) (k : Nat) (inside : k < state.chart.length) :
    itemsAt (state.pushed byte).chart k = itemsAt state.chart k := by
  simp only [pushed, itemsAt, getD_eq_getElem?_getD]
  rw [getElem?_append_left inside]

/-- The last position holds the scanned set. -/
theorem pushed_itemsAt_new (state : EarleyRecognizer) (byte : UInt8) :
    itemsAt (state.pushed byte).chart state.chart.length = state.scanned byte := by
  simp [pushed, itemsAt, getD_eq_getElem?_getD]

variable (charted : Charted grammar word state)
include charted

/-- The scanned set justifies its items, and so does every earlier set. -/
theorem pushed_valid (byte : UInt8) :
    ∀ j item, item ∈ itemsAt (state.pushed byte).chart j → EarleyValid grammar (word ++ [byte]) j item := by
  intro j item member
  rcases Nat.lt_trichotomy j (word.length + 1) with before | rfl | after
  · rw [pushed_itemsAt_old state byte j (by rw [charted.length]; omega)] at member
    exact (charted.sound j item member).mono [byte]
  · rw [← charted.length, pushed_itemsAt_new] at member
    exact scanned_valid charted byte item member
  · rw [itemsAt_beyond _ _ (by simp [pushed, charted.length]; omega)] at member
    exact absurd member (Finset.notMem_empty _)

/-- A fed byte keeps the sets of the earlier positions. -/
theorem feedByte_itemsAt_old (byte : UInt8) (k : Nat) (upper : k ≤ word.length) :
    itemsAt (feedByte order state byte).1.chart k = itemsAt state.chart k := by
  have inside : k < state.chart.length := by rw [charted.length]; omega
  rw [feedByte_eq]
  split
  · exact pushed_itemsAt_old state byte k inside
  · rw [closure_itemsAt_other order _ _ _ (by rw [charted.position]; omega)]
    exact pushed_itemsAt_old state byte k inside

/-- A fed byte keeps every scanned item. -/
theorem scanned_subset_feedByte (byte : UInt8) :
    state.scanned byte ⊆ itemsAt (feedByte order state byte).1.chart (word.length + 1) := by
  have new := pushed_itemsAt_new state byte
  rw [charted.length] at new
  rw [feedByte_eq]
  split
  · exact new ▸ Finset.Subset.refl _
  · rw [← new, charted.position]
    exact subset_closure order _ _ (by simp [pushed, charted.length])

/-- A fed byte gives a justified chart whose last set is saturated. -/
theorem feedByte_spec (byte : UInt8) :
    (∀ j item, item ∈ itemsAt (feedByte order state byte).1.chart j → EarleyValid grammar (word ++ [byte]) j item) ∧
    Saturated grammar (feedByte order state byte).1.chart (word.length + 1) := by
  have valid := pushed_valid charted byte
  obtain rfl := charted.same
  rw [feedByte_eq]
  split
  · rename_i none
    refine ⟨valid, .of_empty ?_⟩
    rw [← charted.length, pushed_itemsAt_new, none]
  · have inside : word.length + 1 < (state.pushed byte).chart.length := by
      simp [pushed, charted.length]
    have beyond : ∀ j, word.length + 1 < j → itemsAt (state.pushed byte).chart j = ∅ :=
      fun j later => itemsAt_beyond _ _ (by simp [pushed, charted.length]; omega)
    rw [charted.position]
    exact ⟨closure_valid order (state.pushed byte) _ _ charted.index inside valid,
      closure_saturated order (state.pushed byte) _ _ charted.index inside valid beyond⟩

/-- One byte extends the chart by one position. -/
theorem feedByte_charted (byte : UInt8) : Charted grammar (word ++ [byte]) (feedByte order state byte).1 := by
  obtain ⟨valid, saturated⟩ := feedByte_spec order charted byte
  have kept := feedByte_itemsAt_old order charted byte
  have length : (feedByte order state byte).1.chart.length = word.length + 2 := by
    rw [feedByte_eq]
    split <;> simp [pushed, charted.length]
  exact {
    same := by rw [feedByte_eq]; split <;> exact charted.same
    index := by rw [feedByte_eq]; split <;> exact charted.index
    position := by
      rw [feedByte_eq, length_append, length_singleton]
      split <;> exact congrArg (· + 1) charted.position
    length := by rw [length, length_append, length_singleton]
    sound := valid
    saturated := fun k => by
      rcases Nat.lt_trichotomy k (word.length + 1) with before | rfl | after
      · refine (charted.saturated k).congr (kept k (Nat.le_of_lt_succ before)) ?_
        intro done member
        exact kept _ ((charted.sound k done member).bounds.1.trans (Nat.le_of_lt_succ before))
      · exact saturated
      · exact .of_empty (itemsAt_beyond _ _ (by omega))
    started := fun id bound lhs => by
      rw [kept 0 (Nat.zero_le _)]
      exact charted.started id bound lhs
    scanned := fun k symbol here item member next => by
      rcases Nat.lt_trichotomy k word.length with before | rfl | after
      · rw [getElem?_append_left before] at here
        rw [kept k (Nat.le_of_lt before)] at member
        rw [kept (k + 1) before]
        exact charted.scanned k symbol here item member next
      · rw [getElem?_concat_length, Option.some.injEq] at here
        subst here
        rw [kept _ (Nat.le_refl _)] at member
        refine scanned_subset_feedByte order charted byte (Finset.mem_image.mpr ⟨item, ?_, rfl⟩)
        rw [Finset.mem_filter, current, charted.position, scans, charted.same]
        exact ⟨member, next⟩
      · rw [getElem?_eq_none (by simp; omega)] at here
        exact absurd here (Option.some_ne_none _).symm }

/-- A whole word gives its chart. -/
theorem feedAll_charted (suffix : List UInt8) : Charted grammar (word ++ suffix) (feedAll order state suffix) := by
  induction suffix generalizing word state with
  | nil => simpa [feedAll] using charted
  | cons byte rest ih =>
      have step := ih (feedByte_charted order charted byte)
      simpa [feedAll] using step

omit charted

theorem recognize_charted (grammar : Grammar) (word : List UInt8) :
    Charted grammar word (recognize order grammar word) :=
  feedAll_charted order (new_charted order grammar) word

/-- The run keeps every set that it leaves behind. -/
theorem recognize_itemsAt_take (grammar : Grammar) (word : List UInt8) (k : Nat) (upper : k ≤ word.length) :
    itemsAt (recognize order grammar word).chart k = (recognize order grammar (word.take k)).current := by
  induction word using List.reverseRecOn with
  | nil =>
      obtain rfl : k = 0 := Nat.le_zero.mp upper
      rfl
  | append_singleton word byte ih =>
      have charted := recognize_charted order grammar word
      have step : recognize order grammar (word ++ [byte]) =
          (feedByte order (recognize order grammar word) byte).1 := by
        simp [recognize, feedAll]
      rcases Nat.lt_or_ge word.length k with last | inside
      · have whole : (word ++ [byte]).take k = word ++ [byte] :=
          take_of_length_le (by simp; omega)
        rw [whole, current, (recognize_charted order grammar (word ++ [byte])).position]
        congr 1
        simp at upper ⊢
        omega
      · rw [step, feedByte_itemsAt_old order charted byte k inside, ih inside,
          take_append_of_le_length inside]

/-- Every state that the run over a word reaches has a current set that is closed under completions
of empty matches. -/
def NullClosedRun (grammar : Grammar) (word : List UInt8) : Prop :=
  ∀ k ≤ word.length, NullClosed grammar (recognize order grammar (word.take k)).current k

instance (grammar : Grammar) (word : List UInt8) : Decidable (NullClosedRun order grammar word) := by
  unfold NullClosedRun
  infer_instance

/-- A chart whose sets are closed under empty completions holds every justified item. -/
theorem Charted.complete (charted : Charted grammar word state)
    (closed : ∀ k ≤ word.length, NullClosed grammar (itemsAt state.chart k) k) {k : Nat}
    {item : EarleyItem} (valid : EarleyValid grammar word k item) (upper : k ≤ word.length) :
    item ∈ itemsAt state.chart k := by
  induction valid with
  | start bound lhs => exact charted.started _ bound lhs
  | predict _ bound next ih => exact (charted.saturated _).predict _ (ih upper) _ bound next
  | empty _ next ih => exact (charted.saturated _).empty _ (ih upper) next
  | scan _ next byte ih =>
      exact charted.scanned _ _ byte _ (ih (Nat.le_of_succ_le upper)) next
  | @complete k item done doneValid finished itemValid next doneStep itemStep =>
      have present := itemStep (doneValid.bounds.1.trans upper)
      by_cases here : done.origin = k
      · -- Only the null closure gives completions over an empty part.
        rw [here] at present
        exact closed k upper done (doneStep upper) here finished item present next
      · exact (charted.saturated k).complete done (doneStep upper) here finished item present next

/-- The sets are exactly Earley's sets if and only if the run is null closed. -/
theorem nullClosedRun_iff_exact (grammar : Grammar) (word : List UInt8) :
    NullClosedRun order grammar word ↔ ∀ k ≤ word.length, ∀ item,
      item ∈ itemsAt (recognize order grammar word).chart k ↔ EarleyValid grammar word k item := by
  have charted := recognize_charted order grammar word
  constructor
  · intro closed k upper item
    refine ⟨charted.sound k item, fun valid => charted.complete (fun j inside => ?_) valid upper⟩
    rw [recognize_itemsAt_take order grammar word j inside]
    exact closed j inside
  · intro exact k upper
    rw [← recognize_itemsAt_take order grammar word k upper]
    intro done member here finished item present next
    rw [exact k upper] at member present ⊢
    exact .complete member finished (by rwa [here]) next

/-- An accepting state has a completed start item. -/
theorem isAccepting_iff (charted : Charted grammar word state) : state.isAccepting = true ↔
    ∃ item ∈ itemsAt state.chart word.length, (grammar.ruleAt item.rule).lhs = grammar.start ∧ item.origin = 0 ∧
        item.dot = (grammar.ruleAt item.rule).rhs.length := by
  rw [isAccepting, decide_eq_true_iff, current, charted.position, charted.same]

/-- Acceptance is sound in every run, also where a set is not null closed. -/
theorem isAccepting_sound (grammar : Grammar) (word : List UInt8)
    (accepts : (recognize order grammar word).isAccepting = true) : grammar.Generates word := by
  have charted := recognize_charted order grammar word
  obtain ⟨item, present, lhs, fromZero, dot⟩ := (isAccepting_iff charted).mp accepts
  have finished : grammar.nextSymbol item = none := List.getElem?_eq_none_iff.mpr (Nat.le_of_eq dot.symm)
  exact (charted.sound _ item present).generates fromZero lhs finished

/-- A null closed run accepts every word of the grammar. -/
theorem isAccepting_complete (grammar : Grammar) (normal : grammar.Normalised) (word : List UInt8)
    (closed : NullClosedRun order grammar word) (generated : grammar.Generates word) :
    (recognize order grammar word).isAccepting = true := by
  obtain ⟨id, _, lhs, valid⟩ := EarleyValid.of_generates normal.terminals generated
  have exact := (nullClosedRun_iff_exact order grammar word).mp closed
  exact (isAccepting_iff (recognize_charted order grammar word)).mpr
    ⟨_, (exact word.length (Nat.le_refl _) _).mpr valid, lhs, rfl, rfl⟩

/-- A run is null closed up to each of its positions. -/
theorem NullClosedRun.take (closed : NullClosedRun order grammar word) (k : Nat) :
    NullClosedRun order grammar (word.take k) := by
  intro j upper
  rw [length_take] at upper
  rw [take_take, Nat.min_eq_left (by omega)]
  exact closed j (by omega)

/-- The order of items by rule, dot and origin. -/
def itemOrder : HashOrder EarleyItem :=
  HashOrder.sortedBy (fun item => Nat.pair (Nat.pair item.rule item.dot) item.origin) (by
    intro first second same
    obtain ⟨outer, origin⟩ := Nat.pair_eq_pair.mp same
    obtain ⟨rule, dot⟩ := Nat.pair_eq_pair.mp outer
    cases first
    cases second
    simp_all)

/-- The start symbol is the empty symbol followed by the byte `x`, or by the byte `a` before it. -/
def optionalGrammar : Grammar :=
  ⟨[⟨0, [.nonTerminal 1, .terminal [120]]⟩, ⟨1, [.terminal []]⟩, ⟨1, [.terminal [97]]⟩], 0, [], 2⟩

theorem optionalGrammar_normalised : optionalGrammar.Normalised := by
  constructor <;> simp [optionalGrammar]

/-- The start symbol is the empty symbol twice. -/
def doubledGrammar : Grammar := ⟨[⟨0, [.nonTerminal 1, .nonTerminal 1]⟩, ⟨1, []⟩], 0, [], 2⟩

theorem doubledGrammar_generates : doubledGrammar.Generates [] := by
  have inner : doubledGrammar.Derives [.nonTerminal 1] [] :=
    Grammar.Derives.rule (show ⟨1, []⟩ ∈ doubledGrammar.rules by decide) .nil
  exact Grammar.Derives.rule
    (show ⟨0, [.nonTerminal 1, .nonTerminal 1]⟩ ∈ doubledGrammar.rules by decide) (inner.append inner)

/-- The empty symbol completes before the second item waits for it, in every iteration order. -/
theorem doubledGrammar_items (order : HashOrder EarleyItem) :
    itemsAt (recognize order doubledGrammar []).chart 0 = {⟨0, 0, 0⟩, ⟨1, 0, 0⟩, ⟨0, 1, 0⟩} := by
  let index := buildRuleIndex doubledGrammar
  let chart : List (Finset EarleyItem) := [{⟨0, 0, 0⟩}]
  have predicted (moment : Nat) (current : Finset EarleyItem) :
      candidates order doubledGrammar index chart 0 moment current ⟨0, 0, 0⟩ = [⟨1, 0, 0⟩] := rfl
  have completed (moment : Nat) :
      candidates order doubledGrammar index chart 0 moment {⟨1, 0, 0⟩, ⟨0, 0, 0⟩} ⟨1, 0, 0⟩ =
        [⟨0, 1, 0⟩] := by
    change (order.iterate moment {⟨1, 0, 0⟩, ⟨0, 0, 0⟩}).filterMap (advancedOver doubledGrammar 1) = _
    refine HashOrder.filterMap_iterate_single order moment {⟨1, 0, 0⟩, ⟨0, 0, 0⟩}
      (advancedOver doubledGrammar 1) (⟨0, 0, 0⟩ : EarleyItem) (⟨0, 1, 0⟩ : EarleyItem) ?_ ?_ ?_ <;>
      decide
  have late (moment : Nat) (current : Finset EarleyItem) :
      candidates order doubledGrammar index chart 0 moment current ⟨0, 1, 0⟩ = [⟨1, 0, 0⟩] := rfl
  have seeds : order.iterate 0 {⟨0, 0, 0⟩} = [⟨0, 0, 0⟩] := HashOrder.iterate_singleton order 0 _
  have looped : (Worklist.close (candidates order doubledGrammar index chart 0) 6 1 {⟨0, 0, 0⟩}
      (order.iterate 0 {⟨0, 0, 0⟩})).1 = {⟨0, 0, 0⟩, ⟨1, 0, 0⟩, ⟨0, 1, 0⟩} := by
    have first : Worklist.pushAll {⟨0, 0, 0⟩} [] [⟨1, 0, 0⟩] =
        (({⟨1, 0, 0⟩, ⟨0, 0, 0⟩} : Finset EarleyItem), [⟨1, 0, 0⟩]) := by decide
    have second : Worklist.pushAll {⟨1, 0, 0⟩, ⟨0, 0, 0⟩} [] [⟨0, 1, 0⟩] =
        (({⟨0, 1, 0⟩, ⟨1, 0, 0⟩, ⟨0, 0, 0⟩} : Finset EarleyItem), [⟨0, 1, 0⟩]) := by decide
    have third : Worklist.pushAll {⟨0, 1, 0⟩, ⟨1, 0, 0⟩, ⟨0, 0, 0⟩} [] [⟨1, 0, 0⟩] =
        (({⟨0, 1, 0⟩, ⟨1, 0, 0⟩, ⟨0, 0, 0⟩} : Finset EarleyItem), []) := by decide
    simp only [seeds, Worklist.close, predicted, first, completed, second, late, third]
    decide
  exact looped

end Pictor.EarleyRecognizer
