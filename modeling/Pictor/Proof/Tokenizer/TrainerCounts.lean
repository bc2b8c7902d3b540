import Pictor.Library.Tally
import Pictor.Proof.Tokenizer.TrainerExact

namespace Pictor.BpeTrainer
open Tally List

section Greatest

variable {Item : Type} {compare : Item → Item → Ordering} {items others : List Item} {best : Item}

/-- The item that remains is at least as great as each item. -/
theorem maxBy_greatest [Std.TransCmp compare] (found : maxBy compare items = some best) :
    ∀ item ∈ items, (compare item best).isLE := by
  cases items with
  | nil => cases found
  | cons first rest =>
      have fold (rest : List Item) (start : Item) : ∀ item ∈ start :: rest,
          (compare item (rest.foldl (fun best next => if compare best next = .gt then best else next) start)).isLE := by
        induction rest generalizing start with
        | nil =>
            intro item member
            have same : compare start start = .eq := Std.ReflCmp.compare_self
            rw [mem_singleton.mp member, foldl_nil, same]
            rfl
        | cons next rest ih =>
            intro item member
            rw [foldl_cons]
            by_cases greater : compare start next = .gt
            · rw [if_pos greater]
              rcases mem_cons.mp member with rfl | later
              · exact ih item item mem_cons_self
              · rcases mem_cons.mp later with rfl | later
                · apply Std.TransCmp.isLE_trans _ (ih start start mem_cons_self)
                  rw [Std.OrientedCmp.lt_of_gt greater]
                  rfl
                · exact ih start item (mem_cons_of_mem _ later)
            · rw [if_neg greater]
              rcases mem_cons.mp member with rfl | later
              · apply Std.TransCmp.isLE_trans _ (ih next next mem_cons_self)
                exact Ordering.isLE_iff_ne_gt.mpr greater
              · exact ih next item later
      rw [← Option.some.inj found]
      exact fold rest first

/-- The greatest item does not depend on the order of the items. -/
theorem maxBy_perm [Std.TransCmp compare] [Std.LawfulEqCmp compare] (permuted : items.Perm others) :
    maxBy compare items = maxBy compare others := by
  cases first : maxBy compare items with
  | none =>
      cases items with
      | nil => rw [permuted.symm.eq_nil]; rfl
      | cons item items => cases first
  | some best =>
      cases second : maxBy compare others with
      | none =>
          cases others with
          | nil =>
              rw [permuted.eq_nil] at first
              cases first
          | cons item items => cases second
      | some other =>
          have lower := maxBy_greatest second best (permuted.mem_iff.mp (maxBy_mem first))
          have upper := maxBy_greatest first other (permuted.mem_iff.mpr (maxBy_mem second))
          rw [Std.LawfulEqCmp.eq_of_compare (Std.OrientedCmp.isLE_antisymm lower upper)]

end Greatest

/-- The comparison of two pairs is a lexicographic one. -/
theorem comparePairs_eq : comparePairs = compareLex (compareOn Prod.snd) (compareLex
    (fun first second => compareOn (fun entry : SymbolPair × Nat => entry.1.left) second first)
    (fun first second => compareOn (fun entry : SymbolPair × Nat => entry.1.right) second first)) := rfl

instance : Std.TransCmp comparePairs := by
  rw [comparePairs_eq]
  infer_instance

instance : Std.LawfulEqCmp comparePairs where
  eq_of_compare {first second} same := by
    rw [comparePairs, Ordering.then_eq_eq, Ordering.then_eq_eq] at same
    obtain ⟨count, left, right⟩ := same
    have count := Std.LawfulEqCmp.eq_of_compare count
    have left := Std.LawfulEqCmp.eq_of_compare left
    have right := Std.LawfulEqCmp.eq_of_compare right
    obtain ⟨⟨_, _⟩, _⟩ := first
    obtain ⟨⟨_, _⟩, _⟩ := second
    cases count
    cases left
    cases right
    rfl

section Counted

variable {config : TrainerConfig} {orders orders' : Orders} {corpus corpus' : List (List Char)} {words words' : List Word}
  {order order' : HashOrder (SymbolPair × Nat)}

/-- Two maps with the same lookups have the same entries. -/
theorem mapEntries_congr {Key Value : Type} [DecidableEq Key] [DecidableEq Value] {first second : AList fun _ : Key => Value}
    (same : ∀ key, first.lookup key = second.lookup key) : mapEntries first = mapEntries second := by
  ext ⟨key, value⟩
  rw [mem_mapEntries, mem_mapEntries, same]

theorem pretokenize_tally (config : TrainerConfig) (corpus : List (List Char)) :
    pretokenize config corpus = tally ((corpus.flatMap (units config)).map fun word => (word, 1)) ∅ := by
  rw [tally, foldl_map, foldl_flatMap]
  rfl

/-- The pairs of a word with its count. -/
def wordPairs (word : Word) : List (SymbolPair × Nat) :=
  (word.symbols.zip word.symbols.tail).map fun (left, right) => (⟨left, right⟩, word.freq)

theorem countPairs_tally (words : List Word) : countPairs words = tally (words.flatMap wordPairs) ∅ := by
  have step (counts : AList fun _ : SymbolPair => Nat) (word : Word) :
      (if word.symbols.length < 2 then counts
        else (word.symbols.zip word.symbols.tail).foldl (fun counts (left, right) =>
          counts.insert ⟨left, right⟩ ((counts.lookup ⟨left, right⟩).getD 0 + word.freq)) counts) =
        tally (wordPairs word) counts := by
    split
    case isTrue short =>
      have none : word.symbols.zip word.symbols.tail = [] := by
        apply eq_nil_of_length_eq_zero
        rw [length_zip, length_tail]
        omega
      rw [wordPairs, none]
      rfl
    case isFalse =>
      rw [wordPairs, tally, foldl_map]
  have fold : countPairs words = words.foldl (fun counts word => tally (wordPairs word) counts) ∅ := by
    rw [countPairs]
    congr 1
    funext counts word
    exact step counts word
  rw [fold, tally, foldl_flatMap]
  rfl

/-- The counted words do not depend on the order of the documents. -/
theorem pretokenize_perm (permuted : corpus.Perm corpus') :
    mapEntries (pretokenize config corpus) = mapEntries (pretokenize config corpus') := by
  apply mapEntries_congr
  intro word
  rw [pretokenize_tally, pretokenize_tally]
  exact lookup_tally_perm ((permuted.flatMap_right _).map _) word

/-- The counted pairs do not depend on the order of the words. -/
theorem countPairs_perm (permuted : words.Perm words') :
    mapEntries (countPairs words) = mapEntries (countPairs words') := by
  apply mapEntries_congr
  intro pair
  rw [countPairs_tally, countPairs_tally]
  exact lookup_tally_perm (permuted.flatMap_right _) pair

/-- The best pair does not depend on an order. -/
theorem bestPair_perm (moment : Nat) (permuted : words.Perm words') :
    bestPair order moment config (countPairs words) = bestPair order' moment config (countPairs words') := by
  rw [bestPair, bestPair, countPairs_perm permuted]
  exact maxBy_perm ((order.iterate_perm order' moment moment _).filter _)

theorem countPairs_empty (permuted : words.Perm words') :
    (countPairs words).entries = [] ↔ (countPairs words').entries = [] := by
  have empty (map : AList fun _ : SymbolPair => Nat) : map.entries = [] ↔ mapEntries map = ∅ := by
    rw [mapEntries, toFinset_eq_empty_iff, map_eq_nil_iff]
  rw [empty, empty, countPairs_perm permuted]

/-- What a training has learned, without its words. -/
def TrainingState.learned (state : TrainingState) : (AList fun _ : UInt32 => List Char) × List MergeRule × Nat :=
  (state.idToToken, state.mergeRules, state.numMergesSkipped)

theorem mergePair_words (state : TrainingState) (pair : SymbolPair) (words : List Word) :
    mergePair { state with words } pair = (mergePair state pair).map fun merged =>
      { merged with words := applyMerge words pair state.nextId } := by
  rw [mergePair, mergePair]
  dsimp only
  split <;> rfl

/-- A training learns the same from the same words in any order. -/
theorem trainLoop_perm (remaining : Nat) (state : TrainingState) (permuted : words.Perm words') :
    (trainLoop order config remaining { state with words }).map TrainingState.learned =
      (trainLoop order' config remaining { state with words := words' }).map TrainingState.learned := by
  induction remaining generalizing state words words' with
  | zero => rfl
  | succ remaining ih =>
      rw [trainLoop, trainLoop]
      dsimp only
      simp only [countPairs_empty permuted, @bestPair_perm config _ _ order order' _ permuted]
      split
      case isTrue => rfl
      case isFalse =>
        split
        case h_1 => rfl
        case h_2 pair count best =>
          rw [mergePair_words, mergePair_words state pair words']
          cases mergePair state pair with
          | error => rfl
          | ok merged => exact ih merged (permuted.map _)

theorem trained_perm {result result' : TrainingRun} (permuted : corpus.Perm corpus')
    (learned : result.state.learned = result'.state.learned) (unique : result.wordFreqs.length = result'.wordFreqs.length) :
    result.trained config corpus = result'.trained config corpus' := by
  have chars : (corpus.map fun doc => (Utf8.encode doc).length).sum =
      (corpus'.map fun doc => (Utf8.encode doc).length).sum := (permuted.map _).sum_eq
  simp only [TrainingState.learned, Prod.mk.injEq] at learned
  obtain ⟨tokens, rules, skipped⟩ := learned
  rw [TrainingRun.trained, TrainingRun.trained, tokens, rules, skipped, unique, chars]

/-- A training depends only on the counts of its words. -/
theorem train_perm (permuted : corpus.Perm corpus') : train orders config corpus = train orders' config corpus' := by
  have empty : corpus = [] ↔ corpus' = [] := by
    rw [← length_eq_zero_iff, permuted.length_eq, length_eq_zero_iff]
  have freqs : (orders.words.iterate 0 (mapEntries (pretokenize config corpus))).Perm
      (orders'.words.iterate 0 (mapEntries (pretokenize config corpus'))) := by
    rw [pretokenize_perm permuted]
    exact orders.words.iterate_perm orders'.words 0 0 _
  have none : orders.words.iterate 0 (mapEntries (pretokenize config corpus)) = [] ↔
      orders'.words.iterate 0 (mapEntries (pretokenize config corpus')) = [] := by
    rw [← length_eq_zero_iff, freqs.length_eq, length_eq_zero_iff]
  rw [train, run, train, run]
  dsimp only
  simp only [empty, none]
  split
  case isTrue => rfl
  case isFalse =>
    generalize (if config.addSpecialTokens = true then 256 + 4 else 256) = minSize
    split
    case isTrue => rfl
    case isFalse =>
      split
      case isTrue => rfl
      case isFalse =>
        have looped := @trainLoop_perm config _ _ orders.pairs orders'.pairs
          (config.vocabSize - (256 + byteIdOffset config).toNat)
          ⟨initialTokens config, 256 + byteIdOffset config, [], [], 0⟩
          (freqs.map fun entry => (⟨encodeWord config entry.1, entry.2⟩ : Word))
        dsimp only at looped
        revert looped
        generalize trainLoop orders.pairs _ _ _ = first
        generalize trainLoop orders'.pairs _ _ _ = second
        intro looped
        cases first with
        | error failure =>
            cases second with
            | error => exact congrArg Except.error (Except.error.inj looped)
            | ok => cases looped
        | ok first =>
            cases second with
            | error => cases looped
            | ok second =>
                exact congrArg Except.ok (trained_perm permuted (Except.ok.inj looped) freqs.length_eq)

end Counted

section Grown

variable {config : TrainerConfig} {texts : List (List Char)} {rules : List MergeRule} {orders : Orders}
  {corpus : List (List Char)}

/-- An initial id, or the product of a rule. -/
def Introduced (config : TrainerConfig) (rules : List MergeRule) (id : UInt32) : Prop :=
  id ∈ initialTokens config ∨ id ∈ rules.map MergeRule.merged

/-- A training adds one entry for each rule, and the parts of a rule are older than its product. -/
structure Grown (config : TrainerConfig) (trained : TrainedTokenizer) : Prop where
  initial : trained.stats.initialVocabSize = if config.addSpecialTokens then 260 else 256
  size : trained.vocab.entries.length = trained.stats.initialVocabSize + trained.merges.length
  bound : trained.vocab.entries.length ≤ config.vocabSize
  entries : ∀ id, id ∈ trained.vocab ↔ Introduced config trained.merges id
  order : ∀ before rule after, trained.merges = before ++ rule :: after →
    Introduced config before rule.left ∧ Introduced config before rule.right ∧ ¬Introduced config before rule.merged

theorem mem_initialTokens (config : TrainerConfig) (id : UInt32) :
    id ∈ initialTokens config ↔ ∃ token, (initialTokens config).lookup id = some token := by
  rw [← AList.lookup_isSome, Option.isSome_iff_exists]

theorem initialTokens_small {id : UInt32} (initial : id ∈ initialTokens config) : id.toNat < firstId config := by
  obtain ⟨token, found⟩ := (mem_initialTokens config id).mp initial
  rw [firstId]
  rcases (initialTokens_lookup config id token).mp found with special | ⟨byte, rfl, _⟩
  · have small := specialTokens_small special
    omega
  · have bound := byte.toNat_lt
    rw [byteId_toNat]
    omega

theorem initialTokens_length (config : TrainerConfig) : (initialTokens config).entries.length = firstId config := by
  rw [initialTokens, InsertAll.length_insertAll_empty (initialTokens_distinct config), length_append,
    length_map, allBytes, length_map, length_range, Nat.add_comm, firstId, specialTokens, byteIdOffset]
  split <;> rfl

/-- The initial ids and the products of the rules are distinct. -/
theorem Learned.introduced_distinct (learned : Learned config texts rules) :
    ((initialTokens config).keys ++ rules.map MergeRule.merged).Nodup := by
  induction learned with
  | nil =>
      rw [map_nil, append_nil]
      exact AList.keys_nodup _
  | @snoc rules rule text earlier id counted occurs ih =>
      rw [map_append, ← append_assoc, nodup_append]
      refine ⟨ih, nodup_singleton _, ?_⟩
      rintro id' older _ new rfl
      rw [mem_singleton.mp new, mem_append] at older
      rcases older with initial | product
      · have small := initialTokens_small initial
        omega
      · obtain ⟨other, member, same⟩ := mem_map.mp product
        have high := (earlier.rule_lt member).2.2.2
        rw [same] at high
        omega

/-- The entries are the initial ones and those of the rules. -/
theorem Tokens.mem_iff {tokens : AList fun _ : UInt32 => List Char} (given : Tokens config rules tokens) (id : UInt32) :
    id ∈ tokens ↔ Introduced config rules id := by
  rw [Introduced, mem_initialTokens, ← AList.lookup_isSome, Option.isSome_iff_exists, mem_map]
  simp only [given.lookup, initialTokens_lookup]
  constructor
  · rintro ⟨token, special | byte | ⟨rule, member, rfl, _⟩⟩
    · exact Or.inl ⟨token, Or.inl special⟩
    · exact Or.inl ⟨token, Or.inr byte⟩
    · exact Or.inr ⟨rule, member, rfl⟩
  · rintro (⟨token, special | byte⟩ | ⟨rule, member, rfl⟩)
    · exact ⟨token, Or.inl special⟩
    · exact ⟨token, Or.inr (Or.inl byte)⟩
    · exact ⟨rule.mergedText, Or.inr (Or.inr ⟨rule, member, rfl, rfl⟩)⟩

theorem Tokens.length {tokens : AList fun _ : UInt32 => List Char} (given : Tokens config rules tokens)
    (learned : Learned config texts rules) : tokens.entries.length = firstId config + rules.length := by
  have same : tokens.keys.Perm ((initialTokens config).keys ++ rules.map MergeRule.merged) := by
    rw [perm_ext_iff_of_nodup (AList.keys_nodup _) learned.introduced_distinct]
    intro id
    rw [mem_append]
    exact given.mem_iff id
  have size := same.length_eq
  have keys (map : AList fun _ : UInt32 => List Char) : map.keys.length = map.entries.length := length_map _
  rwa [length_append, keys, keys, length_map, initialTokens_length] at size

/-- The symbols after some rules are introduced. -/
theorem Known.introduced {id : UInt32} (known : Known config rules id) : Introduced config rules id := by
  rcases known with ⟨byte, rfl⟩ | ⟨rule, member, rfl⟩
  · left
    rw [mem_initialTokens]
    exact ⟨_, (initialTokens_lookup _ _ _).mpr (Or.inr ⟨byte, rfl, rfl⟩)⟩
  · exact Or.inr (mem_map_of_mem member)

/-- The parts of a rule are introduced before it, and its product is not. -/
theorem Learned.order (learned : Learned config texts rules) {before after : List MergeRule} {rule : MergeRule}
    (split : rules = before ++ rule :: after) :
    Introduced config before rule.left ∧ Introduced config before rule.right ∧ ¬Introduced config before rule.merged := by
  have member : rule ∈ rules := split ▸ mem_append_right _ mem_cons_self
  obtain ⟨front, back, text, parts, earlier, _, occurs⟩ := learned.rule_learned member
  have here := (learned.front split).2
  have there := (learned.front parts).2
  have same : before = front := by
    rw [split] at parts
    exact (append_inj parts (by omega)).1
  subst same
  have known (id : UInt32) (inside : id ∈ [rule.left, rule.right]) : Introduced config before id :=
    (symbols_known (occurs.subset inside)).introduced
  refine ⟨known _ mem_cons_self, known _ (mem_cons_of_mem _ mem_cons_self), ?_⟩
  rintro (initial | product)
  · have small := initialTokens_small initial
    omega
  · obtain ⟨other, member, equal⟩ := mem_map.mp product
    have high := (earlier.rule_lt member).2.2.2
    rw [equal] at high
    omega

/-- Each round adds at most one rule. -/
theorem trainLoop_rules {order : HashOrder (SymbolPair × Nat)} {remaining : Nat} {state last : TrainingState}
    (ran : trainLoop order config remaining state = .ok last) :
    last.mergeRules.length ≤ state.mergeRules.length + remaining := by
  induction remaining generalizing state with
  | zero =>
      cases ran
      exact Nat.le_refl _
  | succ remaining ih =>
      rw [trainLoop] at ran
      split at ran
      case isTrue =>
        cases ran
        exact Nat.le_add_right _ _
      case isFalse =>
        split at ran
        case h_1 =>
          cases ran
          exact Nat.le_add_right _ _
        case h_2 pair count best =>
          obtain ⟨middle, merged, ran⟩ := Outcome.bind_ok ran
          have later := ih ran
          have one : middle.mergeRules.length = state.mergeRules.length + 1 := by
            rw [mergePair] at merged
            split at merged
            case isTrue => cases merged
            case isFalse =>
              cases merged
              exact length_append
          omega

theorem run_rules {result : TrainingRun} (ran : run orders config corpus = .ok result) :
    firstId config + result.state.mergeRules.length ≤ config.vocabSize := by
  have offset : (256 + byteIdOffset config).toNat = firstId config := by
    have small := byteIdOffset_small config
    rw [UInt32.toNat_add]
    exact Nat.mod_eq_of_lt (by change 256 + _ < 2 ^ 32; omega)
  have least : (if config.addSpecialTokens = true then 256 + 4 else 256) = firstId config := by
    rw [firstId, byteIdOffset]
    split <;> rfl
  rw [run] at ran
  dsimp only at ran
  rw [least, offset] at ran
  split at ran
  case isTrue => cases ran
  case isFalse =>
    split at ran
    case isTrue => cases ran
    case isFalse room =>
      split at ran
      case isTrue => cases ran
      case isFalse =>
        obtain ⟨state, looped, done⟩ := Outcome.bind_ok ran
        cases done
        have rules := trainLoop_rules looped
        change state.mergeRules.length ≤ 0 + _ at rules
        change _ + state.mergeRules.length ≤ _
        omega

theorem train_grown {trained : TrainedTokenizer} (ran : train orders config corpus = .ok trained) :
    Grown config trained := by
  rw [train] at ran
  obtain ⟨result, done, rfl⟩ : ∃ result, run orders config corpus = .ok result ∧
      result.trained config corpus = trained := by
    cases done : run orders config corpus with
    | error => rw [done] at ran; cases ran
    | ok result => rw [done] at ran; exact ⟨result, rfl, Except.ok.inj ran⟩
  obtain ⟨state, _⟩ := run_trained done
  have initial : (result.trained config corpus).stats.initialVocabSize = firstId config := initialTokens_length config
  have size := state.tokens.length state.learned
  constructor
  · rw [initial, firstId, byteIdOffset]
    split <;> rfl
  · rw [initial]
    exact size
  · change result.state.idToToken.entries.length ≤ _
    rw [size]
    exact run_rules done
  · exact state.tokens.mem_iff
  · intro before rule after split
    exact state.learned.order split

/-- A training depends only on the counts of its words, and it adds one entry for each rule. -/
theorem train_reproducible (orders orders' : Orders) (config : TrainerConfig) {corpus corpus' : List (List Char)}
    (permuted : corpus.Perm corpus') : train orders config corpus = train orders' config corpus' ∧
      ∀ trained, train orders config corpus = .ok trained → Grown config trained :=
  ⟨train_perm permuted, fun _ => train_grown⟩

/-- Two documents in both orders. -/
theorem train_reproducible_swapped : [['a', 'b'], ['c']].Perm [['c'], ['a', 'b']] ∧
    train sortedOrders accentConfig [['a', 'b'], ['c']] = train sortedOrders accentConfig [['c'], ['a', 'b']] ∧
      ∀ trained, train sortedOrders accentConfig [['a', 'b'], ['c']] = .ok trained → Grown accentConfig trained :=
  ⟨.swap _ _ _, train_reproducible sortedOrders sortedOrders accentConfig (.swap _ _ _)⟩

end Grown

end Pictor.BpeTrainer
