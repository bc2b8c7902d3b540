import Pictor.Proof.Tokenizer.TrainerEncode

namespace Pictor.BpeTrainer
open PairMerge List
open String (utf8EncodeChar)

variable {config : TrainerConfig} {texts : List (List Char)} {trained : TrainedTokenizer}
  {order : HashOrder (UInt32 × List Char)} {id : UInt32} {rule : MergeRule}

/-- The token of the id gives the id again, and the id spells one byte or printable bytes. -/
structure Matched (config : TrainerConfig) (order : HashOrder (UInt32 × List Char)) (trained : TrainedTokenizer)
    (id : UInt32) : Prop where
  own : Own order trained id
  plain : (∃ byte, spelling config trained.merges.reverse id = [byte]) ∨
    ∀ byte ∈ spelling config trained.merges.reverse id, isPrintable byte = true

/-- The bytes that the ids spell. -/
def spell (config : TrainerConfig) (trained : TrainedTokenizer) (ids : List UInt32) : List UInt8 :=
  ids.flatMap (spelling config trained.merges.reverse)

/-- The ids of the byte tokens in the vocabulary. -/
def fallbackIds (vocab : Vocabulary) (bytes : List UInt8) : List UInt32 :=
  bytes.filterMap fun byte => vocab.getId (Bpe.byteFallbackId byte)

/-- The ids of the symbols. -/
def symbolIds (vocab : Vocabulary) (symbols : List (List Char)) : List UInt32 :=
  symbols.flatMap fun symbol => Bpe.symbolToIds symbol vocab

/-- The rules make each of the ids from what it spells. -/
def Merged (config : TrainerConfig) (trained : TrainedTokenizer) (ids : List UInt32) : Prop :=
  ∀ id ∈ ids, Merges config trained.merges (spelling config trained.merges.reverse id) id

theorem spell_cons (id : UInt32) (ids : List UInt32) :
    spell config trained (id :: ids) = spelling config trained.merges.reverse id ++ spell config trained ids := rfl

/-- Bytes whose tokens are the text of these bytes are printable. -/
theorem visible_of_text {bytes rest rest' : List UInt8}
    (same : bytes ++ rest = Utf8.encode (bytes.flatMap byteTokenString) ++ rest') :
    (∀ byte ∈ bytes, isPrintable byte = true) ∧ rest = rest' := by
  induction bytes with
  | nil => exact ⟨nofun, same⟩
  | cons byte bytes ih =>
      rw [flatMap_cons, Utf8.encode_append, append_assoc, cons_append] at same
      cases visible : isPrintable byte with
      | true =>
          obtain ⟨char, token, encoded⟩ := byteTokenString_visible visible
          rw [token, Utf8.encode_cons, encoded, Utf8.encode_nil, append_nil, singleton_append] at same
          obtain ⟨others, equal⟩ := ih (List.cons.inj same).2
          refine ⟨?_, equal⟩
          intro other member
          rcases mem_cons.mp member with rfl | member
          · exact visible
          · exact others other member
      | false =>
          rw [byteTokenString_hidden visible, Bpe.byteFallbackId, Utf8.encode_cons] at same
          have bracket : utf8EncodeChar '<' = [0x3C] := by decide
          rw [bracket, append_assoc, singleton_append] at same
          rw [(List.cons.inj same).1] at visible
          exact absurd visible (by decide)

variable (learns : Learns config texts trained)
include learns

/-- A token of the vocabulary is the token of its id. -/
theorem Learns.token_getId {token : List Char} (found : (trained.toPictorTokenizer order).vocab.getId token = some id)
    (known : Known config trained.merges id) : trained.token id = token := by
  have same := learns.lookup known
  rw [TrainedTokenizer.getId_token found, Option.some.injEq] at same
  exact same.symm

/-- Ids of byte tokens that spell the bytes are matched. -/
theorem matched_bytes {bytes rest : List UInt8} {ids : List UInt32} (hidden : ∀ byte ∈ bytes, isPrintable byte = false)
    (merged : Merged config trained (fallbackIds (trained.toPictorTokenizer order).vocab bytes ++ ids))
    (spelled : spell config trained (fallbackIds (trained.toPictorTokenizer order).vocab bytes ++ ids) = bytes ++ rest) :
    (∀ id ∈ fallbackIds (trained.toPictorTokenizer order).vocab bytes, Matched config order trained id) ∧
      spell config trained ids = rest := by
  induction bytes with
  | nil => exact ⟨nofun, spelled⟩
  | cons byte bytes ih =>
      obtain ⟨here, others⟩ := forall_mem_cons.mp hidden
      have entry := learns.lookup (Or.inl ⟨byte, rfl⟩)
      rw [learns.token_byteId, byteTokenString_hidden here] at entry
      obtain ⟨id, found⟩ := @TrainedTokenizer.getId_some order _ _ _ entry
      have split : fallbackIds (trained.toPictorTokenizer order).vocab (byte :: bytes) =
          id :: fallbackIds (trained.toPictorTokenizer order).vocab bytes := filterMap_cons_some found
      rw [split, cons_append] at merged spelled
      rw [split]
      obtain ⟨own, later⟩ := forall_mem_cons.mp merged
      have token := learns.token_getId found own.known
      obtain ⟨first, tail, parts⟩ := exists_cons_of_ne_nil (spelling_ne_nil config trained.merges.reverse id)
      rw [spell_cons, parts, cons_append, cons_append] at spelled
      obtain ⟨rfl, behind⟩ := List.cons.inj spelled
      have single : tail = [] := by
        have text := learns.token_spelling own.known
        rw [token, parts, flatMap_cons, byteTokenString_hidden here, eq_comm, append_right_eq_self,
          flatMap_eq_nil_iff] at text
        apply eq_nil_iff_forall_not_mem.mpr
        exact fun other member => (byteTokenString_plain other).2 (text other member)
      rw [single] at parts
      rw [single, nil_append] at behind
      obtain ⟨matched, equal⟩ := ih others later behind
      refine ⟨?_, equal⟩
      intro other member
      rcases mem_cons.mp member with rfl | member
      · refine ⟨?_, Or.inl ⟨_, parts⟩⟩
        rw [Own, token]
        exact found
      · exact matched other member

/-- Ids of symbols that spell the text of the symbols are matched. -/
theorem matched_symbols {symbols : List (List Char)}
    (each : ∀ symbol ∈ symbols, (∃ char, symbol = [char]) ∨ ∃ id, (trained.toPictorTokenizer order).vocab.getId symbol = some id)
    (merged : Merged config trained (symbolIds (trained.toPictorTokenizer order).vocab symbols))
    (spelled : spell config trained (symbolIds (trained.toPictorTokenizer order).vocab symbols) = Utf8.encode symbols.flatten) :
    ∀ id ∈ symbolIds (trained.toPictorTokenizer order).vocab symbols, Matched config order trained id := by
  induction symbols with
  | nil => exact nofun
  | cons symbol symbols ih =>
      obtain ⟨here, others⟩ := forall_mem_cons.mp each
      have split : symbolIds (trained.toPictorTokenizer order).vocab (symbol :: symbols) =
          Bpe.symbolToIds symbol (trained.toPictorTokenizer order).vocab ++
            symbolIds (trained.toPictorTokenizer order).vocab symbols := rfl
      rw [split] at merged spelled
      rw [flatten_cons, Utf8.encode_append] at spelled
      have later := ih others fun id member => merged id (mem_append_right _ member)
      have both : (∀ id ∈ Bpe.symbolToIds symbol (trained.toPictorTokenizer order).vocab,
          Matched config order trained id) ∧
          spell config trained (symbolIds (trained.toPictorTokenizer order).vocab symbols) =
            Utf8.encode symbols.flatten := by
        cases found : (trained.toPictorTokenizer order).vocab.getId symbol with
        | some id =>
            have single : Bpe.symbolToIds symbol (trained.toPictorTokenizer order).vocab = [id] := by
              rw [Bpe.symbolToIds, found]
            rw [single] at merged spelled ⊢
            have known := (merged id mem_cons_self).known
            have token := learns.token_getId found known
            have text := learns.token_spelling known
            rw [token] at text
            rw [singleton_append, spell_cons, text] at spelled
            obtain ⟨visible, equal⟩ := visible_of_text spelled
            refine ⟨?_, equal⟩
            intro other member
            rw [mem_singleton.mp member]
            refine ⟨?_, Or.inr visible⟩
            rw [Own, token]
            exact found
        | none =>
            rcases here with ⟨char, rfl⟩ | ⟨id, has⟩
            · have hidden : ¬PlainChar char := by
                intro plain
                obtain ⟨byte, visible, _, token⟩ := plain.byte
                have entry := learns.lookup (Or.inl ⟨byte, rfl⟩)
                rw [learns.token_byteId, token] at entry
                obtain ⟨id, has⟩ := @TrainedTokenizer.getId_some order _ _ _ entry
                rw [found] at has
                cases has
              have bytes : Utf8.encode [char] = utf8EncodeChar char := append_nil _
              have fallback : Bpe.symbolToIds [char] (trained.toPictorTokenizer order).vocab =
                  fallbackIds (trained.toPictorTokenizer order).vocab (utf8EncodeChar char) := by
                rw [Bpe.symbolToIds, found, fallbackIds, ← bytes]
              rw [fallback] at merged spelled ⊢
              rw [bytes] at spelled
              exact matched_bytes learns (fun byte => hidden_bytes hidden) merged spelled
            · rw [found] at has
              cases has
      obtain ⟨matched, equal⟩ := both
      rw [split]
      intro id member
      rcases mem_append.mp member with inside | inside
      · exact matched id inside
      · exact later equal id inside

omit learns

theorem flatten_chars (word : List Char) : (word.map fun char => [char]).flatten = word := by
  rw [← flatMap_def, flatMap_singleton']

variable (learns : Learns config texts trained)
include learns

/-- If the encoder agrees with the training, then the ids of the word are matched. -/
theorem matched_encode {word : List Char}
    (same : Bpe.bpeEncode word (trained.toPictorTokenizer order).vocab (trained.toPictorTokenizer order).merges = symbolsAfter config trained.merges word) :
    ∀ id ∈ symbolsAfter config trained.merges word, Matched config order trained id := by
  have merged : Merged config trained (symbolsAfter config trained.merges word) :=
    fun id => learns.learned.symbols_merges
  have spelled := learns.learned.symbols_spelling (Utf8.encode word)
  change spell config trained (symbolsAfter config trained.merges word) = _ at spelled
  rw [← same] at merged spelled ⊢
  apply matched_symbols learns _ merged
  · rw [Bpe.mergeLoop_flatten, flatten_chars]
    exact spelled
  · intro symbol made
    rcases Bpe.mergeLoop_symbols _ _ _ symbol made with single | ⟨x, y, priority, found, rfl⟩
    · obtain ⟨char, _, rfl⟩ := mem_map.mp single
      exact Or.inl ⟨char, rfl⟩
    · rw [TrainedTokenizer.merges_eq] at found
      have listed := Bpe.getMergePriority_mem found
      rw [map_map] at listed
      obtain ⟨rule, member, pair⟩ := mem_map.mp listed
      obtain ⟨rfl, rfl⟩ := Prod.mk.inj pair
      have entry := learns.lookup (Or.inr ⟨rule, member, rfl⟩)
      rw [learns.token_merged member] at entry
      exact Or.inr (TrainedTokenizer.getId_some entry)

/-- Matched ids come from printable rules alone. -/
theorem plainRules_of_matched
    (matched : ∀ text ∈ texts, ∀ id ∈ symbolsAfter config trained.merges text, Matched config order trained id) :
    PlainRules config trained.merges := by
  intro rule member byte hidden
  obtain ⟨text, counted, id, inside, part⟩ := learns.learned.rule_within member
  have product := learns.learned.spelling_merged member
  have absent : byte ∉ spelling config trained.merges.reverse rule.merged := by
    intro occurs
    rcases (matched text counted id inside).plain with ⟨single, only⟩ | visible
    · have left := length_pos_of_ne_nil (spelling_ne_nil config trained.merges.reverse rule.left)
      have right := length_pos_of_ne_nil (spelling_ne_nil config trained.merges.reverse rule.right)
      have short := part.length_le
      rw [only, product, length_append, length_singleton] at short
      omega
    · have shown := visible byte (part.subset occurs)
      rw [hidden] at shown
      cases shown
  rw [product, mem_append, not_or] at absent
  constructor
  · intro same
    rw [same, spelling_byteId learns.learned] at absent
    exact absent.1 mem_cons_self
  · intro same
    rw [same, spelling_byteId learns.learned] at absent
    exact absent.2 mem_cons_self

/-- The encoder agrees with the training on all texts exactly if all rules are printable and each id is found again by
its token. -/
theorem encode_iff : (∀ text ∈ texts, Bpe.bpeEncode text (trained.toPictorTokenizer order).vocab
        (trained.toPictorTokenizer order).merges = symbolsAfter config trained.merges text) ↔
      PlainRules config trained.merges ∧
        ∀ text ∈ texts, ∀ id ∈ symbolsAfter config trained.merges text, Own order trained id := by
  constructor
  · intro agrees
    have matched := fun text member => @matched_encode _ _ _ order learns text (agrees text member)
    exact ⟨plainRules_of_matched learns matched, fun text member id inside => (matched text member id inside).own⟩
  · rintro ⟨plain, own⟩ text member
    exact encode_plain learns plain (own text member)

omit learns

section Run

variable {orders : Orders} {corpus : List (List Char)} {result : TrainingRun}

/-- The symbols that a training leaves for a word. -/
def TrainingRun.symbolsOf (run : TrainingRun) (word : List Char) : Option (List UInt32) :=
  ((run.wordFreqs.zip run.state.words).find? fun entry => entry.1.1 = word).map fun entry => entry.2.symbols

/-- The tokenizer of a training encodes each word of the corpus to the symbols that the training leaves for it. -/
def EncodesAlike (order : HashOrder (UInt32 × List Char)) (config : TrainerConfig) (corpus : List (List Char))
    (result : TrainingRun) : Prop :=
  ∀ doc ∈ corpus, ∀ word ∈ units config doc,
    result.symbolsOf word = some (Bpe.bpeEncode word
      ((result.trained config corpus).toPictorTokenizer order).vocab
      ((result.trained config corpus).toPictorTokenizer order).merges)

/-- The vocabulary gives the token of each symbol that is left in a word the id of this symbol. -/
def OwnTokens (order : HashOrder (UInt32 × List Char)) (config : TrainerConfig) (corpus : List (List Char))
    (result : TrainingRun) : Prop :=
  ∀ word ∈ result.state.words, ∀ id ∈ word.symbols, Own order (result.trained config corpus) id

theorem mem_pretokenize (config : TrainerConfig) (corpus : List (List Char)) (word : List Char) :
    word ∈ pretokenize config corpus ↔ ∃ doc ∈ corpus, word ∈ units config doc := by
  have inner (words : List (List Char)) (freqs : AList fun _ : List Char => Nat) :
      word ∈ words.foldl (fun freqs word => freqs.insert word ((freqs.lookup word).getD 0 + 1)) freqs ↔
        word ∈ freqs ∨ word ∈ words := by
    induction words generalizing freqs with
    | nil => simp
    | cons first words ih =>
        rw [foldl_cons, ih, AList.mem_insert, mem_cons]
        tauto
  have outer (docs : List (List Char)) (freqs : AList fun _ : List Char => Nat) :
      word ∈ docs.foldl (fun freqs doc => (units config doc).foldl (fun freqs word =>
        freqs.insert word ((freqs.lookup word).getD 0 + 1)) freqs) freqs ↔
        word ∈ freqs ∨ ∃ doc ∈ docs, word ∈ units config doc := by
    induction docs generalizing freqs with
    | nil => simp
    | cons doc docs ih =>
        rw [foldl_cons, ih, inner, exists_mem_cons_iff, or_assoc]
  rw [pretokenize, outer]
  exact or_iff_right nofun

/-- The counted texts are the words of the corpus. -/
theorem mem_texts (counted : result.wordFreqs = orders.words.iterate 0 (mapEntries (pretokenize config corpus)))
    (word : List Char) : word ∈ result.wordFreqs.map Prod.fst ↔ ∃ doc ∈ corpus, word ∈ units config doc := by
  rw [← mem_pretokenize, counted, mem_map, ← AList.lookup_isSome, Option.isSome_iff_exists]
  constructor
  · rintro ⟨⟨text, freq⟩, member, rfl⟩
    rw [HashOrder.mem, mem_mapEntries] at member
    exact ⟨freq, member⟩
  · rintro ⟨freq, found⟩
    refine ⟨(word, freq), ?_, rfl⟩
    rw [HashOrder.mem, mem_mapEntries]
    exact found

theorem symbolsOf_text (trained : Trained config result.wordFreqs result.state) {word : List Char}
    (counted : word ∈ result.wordFreqs.map Prod.fst) :
    result.symbolsOf word = some (symbolsAfter config result.state.mergeRules word) := by
  rw [TrainingRun.symbolsOf, trained.words, ← map_prod_left_eq_zip, find?_map, Option.map_map]
  obtain ⟨entry, member, same⟩ := mem_map.mp counted
  cases found : result.wordFreqs.find? ((fun entry => decide (entry.1.1 = word)) ∘ fun entry =>
      (entry, (⟨symbolsAfter config result.state.mergeRules entry.1, entry.2⟩ : Word))) with
  | none =>
      have absent := find?_eq_none.mp found entry member
      exact absurd (decide_eq_true same) absent
  | some other =>
      have here := find?_some found
      rw [Function.comp_apply, decide_eq_true_iff] at here
      rw [← here]
      rfl

theorem run_learns (ran : run orders config corpus = .ok result) :
    Learns config (result.wordFreqs.map Prod.fst) (result.trained config corpus) := by
  obtain ⟨trained, _⟩ := run_trained ran
  exact ⟨trained.learned, trained.tokens⟩

/-- The words of the corpus are the counted texts. -/
theorem encodesAlike_texts (ran : run orders config corpus = .ok result) :
    EncodesAlike order config corpus result ↔ ∀ text ∈ result.wordFreqs.map Prod.fst,
      Bpe.bpeEncode text ((result.trained config corpus).toPictorTokenizer order).vocab
        ((result.trained config corpus).toPictorTokenizer order).merges =
          symbolsAfter config result.state.mergeRules text := by
  obtain ⟨trained, counted⟩ := run_trained ran
  have texts := mem_texts counted
  constructor
  · intro alike text member
    obtain ⟨doc, inside, part⟩ := (texts text).mp member
    have same := alike doc inside text part
    rw [symbolsOf_text trained member, Option.some.injEq] at same
    exact same.symm
  · intro same doc inside text part
    have member := (texts text).mpr ⟨doc, inside, part⟩
    rw [symbolsOf_text trained member, same text member]

/-- The encoder and the training agree on the whole corpus exactly if no merge takes a byte that is not printable ASCII
and no symbol that is left in a word lost its token to another id. -/
theorem encodesAlike_iff (order : HashOrder (UInt32 × List Char)) (ran : run orders config corpus = .ok result) :
    EncodesAlike order config corpus result ↔
      PlainRules config result.state.mergeRules ∧ OwnTokens order config corpus result := by
  obtain ⟨trained, _⟩ := run_trained ran
  have owns : OwnTokens order config corpus result ↔ ∀ text ∈ result.wordFreqs.map Prod.fst,
      ∀ id ∈ symbolsAfter config result.state.mergeRules text, Own order (result.trained config corpus) id := by
    rw [OwnTokens, trained.words, forall_mem_map, forall_mem_map]
  rw [encodesAlike_texts ran, owns]
  exact encode_iff (run_learns ran)

/-- A word of one accented letter occurs twice. -/
def accentConfig : TrainerConfig := ⟨257, 2, false, true⟩

def accentCorpus : List (List Char) := [[Char.ofNat 0xE9, ' ', Char.ofNat 0xE9]]

/-- The training merges the two bytes of the letter. -/
theorem accent_run (orders : Orders) : ∃ result, run orders accentConfig accentCorpus = .ok result ∧
    result.state.mergeRules.map MergeRule.left = [0xC3] := by
  have counted : mapEntries (pretokenize accentConfig accentCorpus) = {([Char.ofNat 0xE9], 2)} := by decide
  have pairs : mapEntries (countPairs [⟨[0xC3, 0xA9], 2⟩]) = {(⟨0xC3, 0xA9⟩, 2)} := by decide
  have encoded : encodeWord accentConfig [Char.ofNat 0xE9] = [0xC3, 0xA9] := by
    rw [encodeWord_eq]
    decide
  have best : bestPair orders.pairs 0 accentConfig (countPairs [⟨[0xC3, 0xA9], 2⟩]) = some (⟨0xC3, 0xA9⟩, 2) := by
    rw [bestPair, pairs, HashOrder.iterate_singleton]
    rfl
  obtain ⟨state, merged, left⟩ : ∃ state,
      mergePair ⟨initialTokens accentConfig, 256, [⟨[0xC3, 0xA9], 2⟩], [], 0⟩ ⟨0xC3, 0xA9⟩ = .ok state ∧
        state.mergeRules.map MergeRule.left = [0xC3] := ⟨_, rfl, rfl⟩
  have looped : trainLoop orders.pairs accentConfig 1
      ⟨initialTokens accentConfig, 256, [⟨[0xC3, 0xA9], 2⟩], [], 0⟩ = .ok state := by
    rw [trainLoop]
    dsimp only
    rw [if_neg (by decide), length_nil, best]
    dsimp only
    rw [merged]
    rfl
  refine ⟨⟨[([Char.ofNat 0xE9], 2)], state⟩, ?_, left⟩
  rw [run, if_neg (by decide)]
  dsimp only
  rw [if_neg (by decide), counted, HashOrder.iterate_singleton, if_neg (by decide), map_singleton, encoded]
  change ((trainLoop orders.pairs accentConfig 1
    ⟨initialTokens accentConfig, 256, [⟨[0xC3, 0xA9], 2⟩], [], 0⟩).bind fun state =>
      .ok (⟨[([Char.ofNat 0xE9], 2)], state⟩ : TrainingRun)) = _
  rw [looped]
  rfl

/-- Sorted orders of words, of pairs and of tokens. -/
def sortedOrders : Orders where
  words := .sortedBy (fun entry => Encodable.encode (entry.1.map Char.toNat, entry.2)) (by
    intro first second same
    obtain ⟨text, freq⟩ := Prod.mk.inj (Encodable.encode_injective same)
    exact Prod.ext (map_injective_iff.mpr (fun _ _ => Char.toNat_inj.mp) text) freq)
  pairs := .sortedBy (fun entry => Encodable.encode ((entry.1.left.toNat, entry.1.right.toNat), entry.2)) (by
    rintro ⟨⟨left, right⟩, freq⟩ ⟨⟨left', right'⟩, freq'⟩ same
    obtain ⟨pair, freq⟩ := Prod.mk.inj (Encodable.encode_injective same)
    obtain ⟨sameLeft, sameRight⟩ := Prod.mk.inj pair
    exact Prod.ext (congrArg₂ SymbolPair.mk (UInt32.toNat_inj.mp sameLeft) (UInt32.toNat_inj.mp sameRight)) freq)

def sortedTokens : HashOrder (UInt32 × List Char) :=
  .sortedBy (fun entry => Encodable.encode (entry.1.toNat, entry.2.map Char.toNat)) (by
    intro first second same
    obtain ⟨id, text⟩ := Prod.mk.inj (Encodable.encode_injective same)
    exact Prod.ext (UInt32.toNat_inj.mp id) (map_injective_iff.mpr (fun _ _ => Char.toNat_inj.mp) text))

/-- The encoder keeps the two bytes of the letter apart. -/
theorem accent_apart : ∃ result, run sortedOrders accentConfig accentCorpus = .ok result ∧
    ¬EncodesAlike sortedTokens accentConfig accentCorpus result := by
  obtain ⟨result, ran, left⟩ := accent_run sortedOrders
  refine ⟨result, ran, fun alike => ?_⟩
  obtain ⟨plain, _⟩ := (encode_iff (run_learns ran)).mp ((encodesAlike_texts ran).mp alike)
  have listed : 0xC3 ∈ result.state.mergeRules.map MergeRule.left := by
    rw [left]
    exact mem_cons_self
  obtain ⟨rule, member, part⟩ := mem_map.mp listed
  exact (plain rule member 0xC3 (by decide)).1 part

/-- The condition of one training. -/
theorem accent_iff : ∃ result, run sortedOrders accentConfig accentCorpus = .ok result ∧
    (EncodesAlike sortedTokens accentConfig accentCorpus result ↔ PlainRules accentConfig result.state.mergeRules ∧
        OwnTokens sortedTokens accentConfig accentCorpus result) := by
  obtain ⟨result, ran, _⟩ := accent_run sortedOrders
  exact ⟨result, ran, encodesAlike_iff sortedTokens ran⟩

end Run

end Pictor.BpeTrainer
