import Pictor.Construction.Tokenizer.Trainer
import Pictor.Library.Outcome

namespace Pictor.BpeTrainer
open InsertAll PairMerge List

variable {config : TrainerConfig} {byte : UInt8}

theorem mem_mapEntries {Key Value : Type} [DecidableEq Key] [DecidableEq Value] {map : AList fun _ : Key => Value}
    {key : Key} {value : Value} : (key, value) ∈ mapEntries map ↔ map.lookup key = some value := by
  rw [mapEntries, mem_toFinset]
  exact mem_permuted (List.Perm.refl _) key value

/-- The first id behind the special tokens and the bytes. -/
def firstId (config : TrainerConfig) : Nat := 256 + (byteIdOffset config).toNat

theorem byteIdOffset_small (config : TrainerConfig) : (byteIdOffset config).toNat ≤ 4 := by
  rw [byteIdOffset]
  split <;> decide

theorem byteId_toNat (config : TrainerConfig) (byte : UInt8) :
    (byteId config byte).toNat = byte.toNat + (byteIdOffset config).toNat := by
  have small := byteIdOffset_small config
  have bound := byte.toNat_lt
  rw [byteId, UInt32.toNat_add, UInt8.toNat_toUInt32, Nat.mod_eq_of_lt]
  omega

theorem byteId_injective (config : TrainerConfig) : Function.Injective (byteId config) := by
  intro first second same
  have equal := congrArg UInt32.toNat same
  rw [byteId_toNat, byteId_toNat] at equal
  exact UInt8.toNat_inj.mp (Nat.add_right_cancel equal)

theorem mem_allBytes (byte : UInt8) : byte ∈ allBytes :=
  mem_map.mpr ⟨byte.toNat, mem_range.mpr byte.toNat_lt, UInt8.ofNat_toNat⟩

theorem nodup_allBytes : allBytes.Nodup := by
  rw [allBytes, nodup_map_iff_inj_on nodup_range]
  intro first inside second inside' same
  have equal := congrArg UInt8.toNat same
  rw [UInt8.toNat_ofNat_of_lt' (mem_range.mp inside), UInt8.toNat_ofNat_of_lt' (mem_range.mp inside')] at equal
  exact equal

/-- Each byte has its id. -/
theorem charVocab_lookup (config : TrainerConfig) (byte : UInt8) :
    (charVocab config).lookup byte = some (byteId config byte) := by
  have distinct : ((allBytes.map fun byte => (byte, byteId config byte)).map Prod.fst).Nodup := by
    rw [map_map]
    exact (map_id _).symm ▸ nodup_allBytes
  rw [charVocab, lookup_insertAll_empty distinct]
  exact mem_map.mpr ⟨byte, mem_allBytes byte, rfl⟩

theorem encodeWord_eq (config : TrainerConfig) (word : List Char) :
    encodeWord config word = (Utf8.encode word).map (byteId config) := by
  rw [encodeWord, ← filterMap_eq_map]
  congr 1
  funext byte
  exact charVocab_lookup config byte

theorem specialTokens_small {id : UInt32} {token : List Char} (member : (id, token) ∈ specialTokens config) :
    id.toNat < (byteIdOffset config).toNat := by
  rw [specialTokens] at member
  rw [byteIdOffset]
  split at member
  case isTrue special =>
    rw [if_pos special]
    simp only [mem_cons, Prod.mk.injEq, not_mem_nil, or_false] at member
    rcases member with ⟨rfl, _⟩ | ⟨rfl, _⟩ | ⟨rfl, _⟩ | ⟨rfl, _⟩ <;> decide
  case isFalse => cases member

/-- The initial ids are distinct. -/
theorem initialTokens_distinct (config : TrainerConfig) : ((specialTokens config ++
    allBytes.map fun byte => (byteId config byte, byteTokenString byte)).map Prod.fst).Nodup := by
  rw [map_append, nodup_append]
  refine ⟨?_, ?_, ?_⟩
  · rw [specialTokens]
    split <;> decide
  · rw [map_map]
    exact nodup_allBytes.map (byteId_injective config)
  · rintro _ special _ listed rfl
    obtain ⟨⟨id, token⟩, entry, rfl⟩ := mem_map.mp special
    rw [map_map] at listed
    obtain ⟨byte, _, same⟩ := mem_map.mp listed
    have small := specialTokens_small entry
    change byteId config byte = id at same
    rw [← same, byteId_toNat] at small
    omega

theorem initialTokens_lookup (config : TrainerConfig) (id : UInt32) (token : List Char) :
    (initialTokens config).lookup id = some token ↔
      (id, token) ∈ specialTokens config ∨ ∃ byte, id = byteId config byte ∧ token = byteTokenString byte := by
  rw [initialTokens, lookup_insertAll_empty (initialTokens_distinct config), mem_append, mem_map]
  refine or_congr_right ⟨?_, ?_⟩
  · rintro ⟨byte, _, ⟨⟩⟩
    exact ⟨byte, rfl, rfl⟩
  · rintro ⟨byte, rfl, rfl⟩
    exact ⟨byte, mem_allBytes byte, rfl⟩

/-- The join of a learned rule. -/
def ruleJoin (rule : MergeRule) : UInt32 → UInt32 → Option UInt32 :=
  SymbolPair.join ⟨rule.left, rule.right⟩ rule.merged

/-- The symbols of a word after some rules. -/
def symbolsAfter (config : TrainerConfig) (rules : List MergeRule) (text : List Char) : List UInt32 :=
  reduce (rules.map ruleJoin) ((Utf8.encode text).map (byteId config))

/-- Each rule takes the next id and merges a pair of a counted word. -/
inductive Learned (config : TrainerConfig) (texts : List (List Char)) : List MergeRule → Prop
  | nil : Learned config texts []
  | snoc {rules : List MergeRule} {rule : MergeRule} {text : List Char} (earlier : Learned config texts rules)
      (id : rule.merged.toNat = firstId config + rules.length) (counted : text ∈ texts)
      (occurs : [rule.left, rule.right] <:+: symbolsAfter config rules text) :
      Learned config texts (rules ++ [rule])

/-- The tokens are the special ones, those of the bytes, and those of the rules. -/
structure Tokens (config : TrainerConfig) (rules : List MergeRule) (tokens : AList fun _ : UInt32 => List Char) :
    Prop where
  lookup : ∀ id token, tokens.lookup id = some token ↔ (id, token) ∈ specialTokens config ∨
    (∃ byte, id = byteId config byte ∧ token = byteTokenString byte) ∨
    ∃ rule ∈ rules, id = rule.merged ∧ token = rule.mergedText
  merged : ∀ rule ∈ rules,
    rule.mergedText = (tokens.lookup rule.left).getD [] ++ (tokens.lookup rule.right).getD []

/-- The state of a training after some merges. -/
structure Trained (config : TrainerConfig) (wordFreqs : List (List Char × Nat)) (state : TrainingState) : Prop where
  learned : Learned config (wordFreqs.map Prod.fst) state.mergeRules
  next : state.nextId.toNat = firstId config + state.mergeRules.length
  tokens : Tokens config state.mergeRules state.idToToken
  words : state.words = wordFreqs.map fun (text, freq) => ⟨symbolsAfter config state.mergeRules text, freq⟩

theorem join_some {pair : SymbolPair} {newId first second merged : UInt32} :
    pair.join newId first second = some merged ↔ first = pair.left ∧ second = pair.right ∧ merged = newId := by
  rw [SymbolPair.join]
  by_cases same : first = pair.left ∧ second = pair.right
  · rw [if_pos same, Option.some.injEq, and_iff_right same.1, and_iff_right same.2]
    exact eq_comm
  · rw [if_neg same]
    exact iff_of_false nofun fun both => same ⟨both.1, both.2.1⟩

theorem symbolsAfter_concat (rules : List MergeRule) (rule : MergeRule) (text : List Char) :
    symbolsAfter config (rules ++ [rule]) text = scan (ruleJoin rule) (symbolsAfter config rules text) := by
  rw [symbolsAfter, map_append, reduce_append]
  rfl

/-- The symbols after some rules have ids below the next one. -/
theorem Learned.ids_lt {texts : List (List Char)} {rules : List MergeRule} (learned : Learned config texts rules)
    (text : List Char) : ∀ id ∈ symbolsAfter config rules text, id.toNat < firstId config + rules.length := by
  induction learned generalizing text with
  | nil =>
      intro id member
      obtain ⟨byte, _, rfl⟩ := mem_map.mp member
      have bound := byte.toNat_lt
      rw [byteId_toNat, firstId]
      change _ < _ + 0
      omega
  | @snoc rules rule other earlier fresh counted occurs ih =>
      intro id member
      rw [symbolsAfter_concat] at member
      rw [length_append, length_singleton]
      rcases mem_scan member with old | ⟨first, second, joined⟩
      · have small := ih text id old
        omega
      · obtain ⟨_, _, rfl⟩ := join_some.mp joined
        rw [fresh]
        omega

theorem pair_occurs {left right : UInt32} {symbols : List UInt32} (member : (left, right) ∈ symbols.zip symbols.tail) :
    [left, right] <:+: symbols := by
  induction symbols with
  | nil => cases member
  | cons first symbols ih =>
      cases symbols with
      | nil => cases member
      | cons second rest =>
          rw [tail_cons, zip_cons_cons] at member
          rcases mem_cons.mp member with same | later
          · cases same
            exact pair_infix_cons.mpr (Or.inl ⟨rfl, rfl⟩)
          · exact pair_infix_cons.mpr (Or.inr (ih later))

/-- Only pairs that occur in a word are counted. -/
theorem countPairs_occurs (counted : pair ∈ countPairs words) :
    ∃ word ∈ words, [pair.left, pair.right] <:+: word.symbols := by
  have pairs (counts : AList fun _ : SymbolPair => Nat) (freq : Nat) (listed : List (UInt32 × UInt32))
      (found : pair ∈ listed.foldl (fun counts pair =>
        counts.insert ⟨pair.1, pair.2⟩ ((counts.lookup ⟨pair.1, pair.2⟩).getD 0 + freq)) counts) :
      pair ∈ counts ∨ (pair.left, pair.right) ∈ listed := by
    induction listed generalizing counts with
    | nil => exact Or.inl found
    | cons entry listed ih =>
        rcases ih _ found with inserted | later
        · rcases (AList.mem_insert _).mp inserted with same | old
          · rw [same]
            exact Or.inr mem_cons_self
          · exact Or.inl old
        · exact Or.inr (mem_cons_of_mem _ later)
  have all (words : List Word) (counts : AList fun _ : SymbolPair => Nat) (found : pair ∈ words.foldl (fun counts word =>
      if word.symbols.length < 2 then counts
      else (word.symbols.zip word.symbols.tail).foldl (fun counts pair =>
        counts.insert ⟨pair.1, pair.2⟩ ((counts.lookup ⟨pair.1, pair.2⟩).getD 0 + word.freq)) counts) counts) :
      pair ∈ counts ∨ ∃ word ∈ words, [pair.left, pair.right] <:+: word.symbols := by
    induction words generalizing counts with
    | nil => exact Or.inl found
    | cons word words ih =>
        rcases ih _ found with inserted | ⟨other, member, occurs⟩
        · dsimp only at inserted
          split at inserted
          case isTrue => exact Or.inl inserted
          case isFalse =>
            rcases pairs _ _ _ inserted with old | listed
            · exact Or.inl old
            · exact Or.inr ⟨word, mem_cons_self, pair_occurs listed⟩
        · exact Or.inr ⟨other, mem_cons_of_mem _ member, occurs⟩
  rcases all words ∅ counted with none | occurs
  · cases none
  · exact occurs

theorem maxBy_mem {Item : Type} {compare : Item → Item → Ordering} {items : List Item} {best : Item}
    (found : maxBy compare items = some best) : best ∈ items := by
  cases items with
  | nil => cases found
  | cons first rest =>
      have fold (rest : List Item) (start : Item) :
          rest.foldl (fun best next => if compare best next = .gt then best else next) start ∈ start :: rest := by
        induction rest generalizing start with
        | nil => exact mem_cons_self
        | cons next rest ih =>
            rw [foldl_cons]
            split
            · rcases mem_cons.mp (ih start) with same | later
              · rw [same]
                exact mem_cons_self
              · exact mem_cons_of_mem _ (mem_cons_of_mem _ later)
            · exact mem_cons_of_mem _ (ih next)
      rw [← Option.some.inj found]
      exact fold rest first

/-- The best pair occurs in a word. -/
theorem bestPair_occurs {moment : Nat} {count : Nat}
    (best : bestPair order moment config (countPairs words) = some (pair, count)) :
    ∃ word ∈ words, [pair.left, pair.right] <:+: word.symbols := by
  have listed := mem_of_mem_filter (maxBy_mem best)
  rw [HashOrder.mem, mem_mapEntries] at listed
  exact countPairs_occurs (AList.lookup_isSome.mp (Option.isSome_iff_exists.mpr ⟨count, listed⟩))

variable {wordFreqs : List (List Char × Nat)} {state last : TrainingState} {pair : SymbolPair} {words : List Word}
  {order : HashOrder (SymbolPair × Nat)} {rules : List MergeRule} {rule : MergeRule}

/-- The parts of a rule are older than the rule. -/
theorem Learned.rule_lt {texts : List (List Char)} (learned : Learned config texts rules) (member : rule ∈ rules) :
    rule.left.toNat < rule.merged.toNat ∧ rule.right.toNat < rule.merged.toNat ∧
      firstId config ≤ rule.merged.toNat ∧ rule.merged.toNat < firstId config + rules.length := by
  induction learned with
  | nil => cases member
  | @snoc rules last text earlier id counted occurs ih =>
      rw [length_append, length_singleton]
      rcases mem_append.mp member with old | new
      · obtain ⟨left, right, low, high⟩ := ih old
        exact ⟨left, right, low, by omega⟩
      · rw [mem_singleton.mp new, id]
        have inside := occurs.subset
        have left := earlier.ids_lt text _ (inside mem_cons_self)
        have right := earlier.ids_lt text _ (inside (mem_cons_of_mem _ mem_cons_self))
        exact ⟨left, right, by omega, by omega⟩

theorem applyMerge_eq (words : List Word) (pair : SymbolPair) (newId : UInt32) : applyMerge words pair newId =
      words.map fun word => { word with symbols := scan (pair.join newId) word.symbols } := by
  rw [applyMerge]
  apply map_congr_left
  intro word _
  by_cases short : word.symbols.length < 2
  · rw [if_pos short, scan_of_apart fun x y inside => absurd inside (no_pair_short short)]
  · rw [if_neg short]

/-- A new token leaves the older tokens. -/
theorem Tokens.insert {tokens : AList fun _ : UInt32 => List Char} (before : Tokens config rules tokens)
    (older : ∀ other ∈ rules, other.left ≠ rule.merged ∧ other.right ≠ rule.merged ∧ other.merged ≠ rule.merged)
    (parts : rule.left ≠ rule.merged ∧ rule.right ≠ rule.merged) (high : firstId config ≤ rule.merged.toNat)
    (text : rule.mergedText = (tokens.lookup rule.left).getD [] ++ (tokens.lookup rule.right).getD []) :
    Tokens config (rules ++ [rule]) (tokens.insert rule.merged rule.mergedText) := by
  rw [firstId] at high
  have notSpecial (token : List Char) : (rule.merged, token) ∉ specialTokens config := by
    intro member
    have small := specialTokens_small member
    omega
  have notByte (byte : UInt8) : rule.merged ≠ byteId config byte := by
    intro same
    have bound := byte.toNat_lt
    rw [same, byteId_toNat] at high
    omega
  constructor
  · intro id token
    by_cases same : id = rule.merged
    · rw [same, AList.lookup_insert, Option.some.injEq]
      constructor
      · rintro rfl
        exact Or.inr (Or.inr ⟨rule, mem_append_right _ mem_cons_self, rfl, rfl⟩)
      · rintro (special | ⟨byte, isByte, _⟩ | ⟨other, member, id, rfl⟩)
        · exact absurd special (notSpecial token)
        · exact absurd isByte (notByte byte)
        · rcases mem_append.mp member with old | new
          · exact absurd id.symm (older other old).2.2
          · rw [mem_singleton.mp new]
    · rw [AList.lookup_insert_ne same, before.lookup]
      refine or_congr_right (or_congr_right ⟨?_, ?_⟩)
      · rintro ⟨other, member, both⟩
        exact ⟨other, mem_append_left _ member, both⟩
      · rintro ⟨other, member, rfl, both⟩
        rcases mem_append.mp member with old | new
        · exact ⟨other, old, rfl, both⟩
        · rw [mem_singleton.mp new] at same
          exact absurd rfl same
  · intro other member
    rcases mem_append.mp member with old | new
    · obtain ⟨left, right, _⟩ := older other old
      rw [AList.lookup_insert_ne left, AList.lookup_insert_ne right]
      exact before.merged other old
    · rw [mem_singleton.mp new, AList.lookup_insert_ne parts.1, AList.lookup_insert_ne parts.2]
      exact text

/-- A merge of a pair that occurs keeps the training. -/
theorem Trained.mergePair (trained : Trained config wordFreqs state)
    (occurs : ∃ word ∈ state.words, [pair.left, pair.right] <:+: word.symbols)
    (merged : mergePair state pair = .ok last) : Trained config wordFreqs last := by
  obtain ⟨learned, next, tokens, words⟩ := trained
  rw [BpeTrainer.mergePair] at merged
  split at merged
  case isTrue => cases merged
  case isFalse room =>
    cases merged
    obtain ⟨word, member, occurs⟩ := occurs
    rw [words, mem_map] at member
    obtain ⟨⟨text, freq⟩, member, rfl⟩ := member
    have bound := state.nextId.toNat_lt
    have inside := occurs.subset
    have left := learned.ids_lt text _ (inside mem_cons_self)
    have right := learned.ids_lt text _ (inside (mem_cons_of_mem _ mem_cons_self))
    have apart {id : UInt32} (below : id.toNat < firstId config + state.mergeRules.length) : id ≠ state.nextId := by
      rintro rfl
      omega
    constructor
    · exact .snoc learned next (mem_map_of_mem member) occurs
    · rw [UInt32.toNat_add, length_append, length_singleton, ← Nat.add_assoc, ← next]
      exact Nat.mod_eq_of_lt (by change state.nextId.toNat + 1 < 2 ^ 32; omega)
    · apply tokens.insert
      · intro other old
        obtain ⟨left, right, _, high⟩ := learned.rule_lt old
        exact ⟨apart (by omega), apart (by omega), apart (by omega)⟩
      · exact ⟨apart left, apart right⟩
      · change firstId config ≤ state.nextId.toNat
        omega
      · rfl
    · rw [applyMerge_eq, words, map_map]
      apply map_congr_left
      rintro ⟨text, freq⟩ _
      have after := @symbolsAfter_concat config state.mergeRules (pair.mergedSymbol state.nextId
        ((state.idToToken.lookup pair.left).getD [] ++ (state.idToToken.lookup pair.right).getD [])) text
      exact congrArg (fun symbols => (⟨symbols, freq⟩ : Word)) after.symm

theorem trainLoop_trained {remaining : Nat} (trained : Trained config wordFreqs state)
    (ran : trainLoop order config remaining state = .ok last) : Trained config wordFreqs last := by
  induction remaining generalizing state with
  | zero =>
      cases ran
      exact trained
  | succ remaining ih =>
      rw [trainLoop] at ran
      split at ran
      case isTrue =>
        cases ran
        exact trained
      case isFalse =>
        split at ran
        case h_1 =>
          cases ran
          exact ⟨trained.learned, trained.next, trained.tokens, trained.words⟩
        case h_2 pair count best =>
          obtain ⟨middle, merged, ran⟩ := Outcome.bind_ok ran
          exact ih (trained.mergePair (bestPair_occurs best) merged) ran

/-- A training that succeeds is one of the counted words. -/
theorem run_trained {orders : Orders} {corpus : List (List Char)} {result : TrainingRun}
    (ran : run orders config corpus = .ok result) : Trained config result.wordFreqs result.state ∧
      result.wordFreqs = orders.words.iterate 0 (mapEntries (pretokenize config corpus)) := by
  rw [run] at ran
  split at ran
  case isTrue => cases ran
  case isFalse =>
    dsimp only at ran
    generalize (if config.addSpecialTokens = true then 256 + 4 else 256) = minSize at ran
    split at ran
    case isTrue => cases ran
    case isFalse =>
      split at ran
      case isTrue => cases ran
      case isFalse =>
        obtain ⟨state, looped, done⟩ := Outcome.bind_ok ran
        cases done
        refine ⟨trainLoop_trained ?_ looped, rfl⟩
        have offset := byteIdOffset_small config
        constructor
        · exact .nil
        · change (256 + byteIdOffset config).toNat = firstId config + 0
          rw [UInt32.toNat_add]
          exact Nat.mod_eq_of_lt (by change 256 + _ < 2 ^ 32; omega)
        · constructor
          · intro id token
            rw [initialTokens_lookup]
            simp
          · exact fun _ none => (nomatch none)
        · apply map_congr_left
          rintro ⟨text, freq⟩ _
          rw [encodeWord_eq]
          rfl

end Pictor.BpeTrainer
