import Pictor.Proof.Tokenizer.TrainerVocabulary

namespace Pictor.BpeTrainer
open PairMerge List
open String (utf8EncodeChar)

variable {config : TrainerConfig} {texts : List (List Char)} {trained : TrainedTokenizer}
  {order : HashOrder (UInt32 × List Char)} {id : UInt32} {rule : MergeRule}

/-- The id spells printable bytes and is what the rules make of them. -/
structure PlainId (config : TrainerConfig) (rules : List MergeRule) (id : UInt32) : Prop where
  visible : ∀ byte ∈ spelling config rules.reverse id, isPrintable byte = true
  merges : Merges config rules (spelling config rules.reverse id) id

/-- No learned merge has the id of a byte that is not printable as a part. -/
def PlainRules (config : TrainerConfig) (rules : List MergeRule) : Prop :=
  ∀ rule ∈ rules, ∀ byte, isPrintable byte = false →
    rule.left ≠ byteId config byte ∧ rule.right ≠ byteId config byte

variable {rules : List MergeRule} {bytes : List UInt8} {char : Char} {block : List UInt32}

theorem Merges.known (merges : Merges config rules bytes id) : Known config rules id := by
  apply @symbols_known _ _ bytes
  rw [Merges] at merges
  rw [merges]
  exact mem_cons_self

theorem encode_visible (visible : ∀ byte ∈ bytes, isPrintable byte = true) :
    Utf8.encode (bytes.flatMap byteTokenString) = bytes := by
  induction bytes with
  | nil => rfl
  | cons byte bytes ih =>
      obtain ⟨here, others⟩ := forall_mem_cons.mp visible
      obtain ⟨char, token, encoded⟩ := byteTokenString_visible here
      rw [flatMap_cons, Utf8.encode_append, ih others, token, Utf8.encode_cons, encoded]
      rfl

/-- Ids with printable bytes have different tokens. -/
theorem PlainId.injective (learns : Learns config texts trained) {other : UInt32}
    (plain : PlainId config trained.merges id) (plain' : PlainId config trained.merges other)
    (same : trained.token id = trained.token other) : id = other := by
  rw [learns.token_spelling plain.merges.known, learns.token_spelling plain'.merges.known] at same
  have bytes := congrArg Utf8.encode same
  rw [encode_visible plain.visible, encode_visible plain'.visible] at bytes
  have merges := plain.merges
  rw [bytes, Merges, plain'.merges] at merges
  exact (List.cons.inj merges).1.symm

variable (learned : Learned config texts rules)
include learned

/-- The ids of printable rules spell printable bytes. -/
theorem Learned.visible (plain : PlainRules config rules) (known : Known config rules id)
    (apart : ∀ byte, isPrintable byte = false → id ≠ byteId config byte) :
    ∀ byte ∈ spelling config rules.reverse id, isPrintable byte = true := by
  induction learned generalizing id with
  | nil =>
      rcases known with ⟨byte, rfl⟩ | ⟨rule, none, _⟩
      · have single : spelling config [].reverse (byteId config byte) = [byte] :=
          spelling_byteId (@Learned.nil config []) byte
        rw [single]
        intro other member
        rw [mem_singleton.mp member]
        by_contra hidden
        exact apart byte (Bool.eq_false_of_not_eq_true hidden) rfl
      · cases none
  | @snoc rules last text earlier id' counted occurs ih =>
      have before {other : UInt32} := @ih other fun rule member => plain rule (mem_append_left _ member)
      rw [reverse_append, reverse_singleton, singleton_append, spelling]
      by_cases same : id = last.merged
      · have parts := plain last (mem_append_right _ mem_cons_self)
        have left := before (symbols_known (occurs.subset mem_cons_self)) fun byte hidden => (parts byte hidden).1
        have right := before (symbols_known (occurs.subset (mem_cons_of_mem _ mem_cons_self)))
          fun byte hidden => (parts byte hidden).2
        rw [if_pos same]
        intro byte member
        rcases mem_append.mp member with inside | inside
        · exact left byte inside
        · exact right byte inside
      · rw [if_neg same]
        refine before ?_ apart
        rcases known with byte | ⟨rule, member, rfl⟩
        · exact Or.inl byte
        · rcases mem_append.mp member with old | new
          · exact Or.inr ⟨rule, old, rfl⟩
          · rw [mem_singleton.mp new] at same
            exact absurd rfl same

theorem Learned.byteId_ne_merged (member : rule ∈ rules) (byte : UInt8) : rule.merged ≠ byteId config byte := by
  intro same
  obtain ⟨_, _, low, _⟩ := learned.rule_lt member
  have bound := byte.toNat_lt
  rw [same, byteId_toNat, firstId] at low
  omega

/-- The parts and the product of a printable rule are printable. -/
theorem Learned.rule_plain (plain : PlainRules config rules) (member : rule ∈ rules) :
    PlainId config rules rule.left ∧ PlainId config rules rule.right ∧ PlainId config rules rule.merged := by
  obtain ⟨left, right, merged⟩ := learned.rule_merges member
  have parts := plain rule member
  refine ⟨⟨?_, left⟩, ⟨?_, right⟩, ⟨?_, merged⟩⟩
  · exact learned.visible plain left.known fun byte hidden => (parts byte hidden).1
  · exact learned.visible plain right.known fun byte hidden => (parts byte hidden).2
  · exact learned.visible plain merged.known fun byte _ => learned.byteId_ne_merged member byte

omit learned

/-- A symbol of the encoder stands for an id with printable bytes, or for the bytes of another character. -/
inductive Stands (config : TrainerConfig) (trained : TrainedTokenizer) : List Char → List UInt32 → Prop
  | token {id : UInt32} (plain : PlainId config trained.merges id) : Stands config trained (trained.token id) [id]
  | char {char : Char} (hidden : ¬PlainChar char) :
      Stands config trained [char] ((utf8EncodeChar char).map (byteId config))

/-- The texts of the parts of a rule. -/
def rulePair (trained : TrainedTokenizer) (rule : MergeRule) : List Char × List Char :=
  (trained.token rule.left, trained.token rule.right)

variable (learns : Learns config texts trained)
include learns

variable (plain : PlainId config trained.merges id)
include plain

theorem Learns.plain_token : (∀ char ∈ trained.token id, PlainChar char) ∧ trained.token id ≠ [] := by
  rw [learns.token_spelling plain.merges.known]
  constructor
  · intro char member
    obtain ⟨byte, _, inside⟩ := mem_flatMap.mp member
    exact (byteTokenString_plain byte).1 char inside
  · intro empty
    rw [flatMap_eq_nil_iff] at empty
    obtain ⟨byte, rest, spelled⟩ := exists_cons_of_ne_nil (spelling_ne_nil config trained.merges.reverse id)
    exact (byteTokenString_plain byte).2 (empty byte (by rw [spelled]; exact mem_cons_self))

/-- The bytes of a character that is not printable are no id with printable bytes. -/
theorem PlainId.ne_hidden (hidden : ¬PlainChar char) : id ∉ (utf8EncodeChar char).map (byteId config) := by
  intro member
  obtain ⟨byte, inside, rfl⟩ := mem_map.mp member
  have visible := plain.visible
  rw [spelling_byteId learns.learned] at visible
  have here := visible byte mem_cons_self
  rw [hidden_bytes hidden inside] at here
  cases here

/-- A symbol with the text of a printable id is this id. -/
theorem Stands.of_token (stands : Stands config trained (trained.token id) block) : block = [id] := by
  generalize text : trained.token id = symbol at stands
  cases stands with
  | token plain' => rw [plain.injective learns plain' text]
  | @char char hidden =>
      have visible := (learns.plain_token plain).1 char (by rw [text]; exact mem_cons_self)
      exact absurd visible hidden

/-- A printable id within a block is the whole block. -/
theorem Stands.of_mem {symbol : List Char} (stands : Stands config trained symbol block) (member : id ∈ block) :
    symbol = trained.token id ∧ block = [id] := by
  cases stands with
  | token _ =>
      rw [mem_singleton.mp member]
      exact ⟨rfl, rfl⟩
  | char hidden => exact absurd member (plain.ne_hidden learns hidden)

omit plain

/-- The joins of the texts and of the ids of a printable rule agree. -/
theorem agree (plain : PlainRules config trained.merges) (member : rule ∈ trained.merges) :
    Agree (Stands config trained) (Bpe.textJoin (rulePair trained rule)) (ruleJoin rule) := by
  obtain ⟨left, right, merged⟩ := learns.learned.rule_plain plain member
  constructor
  · intro symbol stands
    generalize empty : ([] : List UInt32) = block at stands
    cases stands with
    | token _ => cases empty
    | char hidden => exact Utf8.utf8EncodeChar_ne_nil _ (map_eq_nil_iff.mp empty.symm)
  · intro symbol block stands x y inside
    cases joined : ruleJoin rule x y with
    | none => rfl
    | some z =>
        obtain ⟨rfl, rfl, _⟩ := ruleJoin_some.mp joined
        obtain ⟨_, single⟩ := stands.of_mem learns left (inside.subset mem_cons_self)
        rw [single] at inside
        exact absurd inside (no_pair_short (Nat.lt_succ_self 1))
  · intro first second front back x y stands stands' apart
    cases joined : ruleJoin rule x y with
    | none => rfl
    | some z =>
        obtain ⟨rfl, rfl, _⟩ := ruleJoin_some.mp joined
        obtain ⟨rfl, _⟩ := stands.of_mem learns left (mem_append_right _ mem_cons_self)
        obtain ⟨rfl, _⟩ := stands'.of_mem learns right mem_cons_self
        exact absurd rfl (Bpe.textJoin_none.mp apart)
  · intro first second text block block' stands stands' joined
    obtain ⟨same, rfl⟩ := Bpe.textJoin_some.mp joined
    obtain ⟨rfl, rfl⟩ := Prod.mk.inj same
    refine ⟨rule.left, rule.right, rule.merged, stands.of_token learns left, stands'.of_token learns right,
      ruleJoin_some.mpr ⟨rfl, rfl, rfl⟩, ?_⟩
    rw [← learns.token_merged member]
    exact .token merged

/-- After the rules before a printable rule it is this rule's turn. -/
theorem turn (plain : PlainRules config trained.merges) {front back : List MergeRule}
    (split : trained.merges = front ++ rule :: back) (text : List Char) :
    Bpe.Turn (trained.toPictorTokenizer order).merges (front.map (rulePair trained)) (trained.token rule.left)
      (trained.token rule.right) text := by
  obtain ⟨before, id⟩ := learns.learned.front split
  have listed : rule ∈ trained.merges := by
    rw [split]
    exact mem_append_right _ mem_cons_self
  have listed' {other : MergeRule} (member : other ∈ front) : other ∈ trained.merges := by
    rw [split]
    exact mem_append_left _ member
  obtain ⟨left, right, merged⟩ := learns.learned.rule_plain plain listed
  have product := learns.token_merged listed
  have older {other : MergeRule} (member : other ∈ front) : other.merged.toNat < rule.merged.toNat := by
    obtain ⟨_, _, _, high⟩ := before.rule_lt member
    omega
  have fresh : rulePair trained rule ∉ front.map (rulePair trained) := by
    intro seen
    obtain ⟨other, member, same⟩ := mem_map.mp seen
    obtain ⟨sameLeft, sameRight⟩ := Prod.mk.inj same
    have text := learns.token_merged (listed' member)
    rw [sameLeft, sameRight, ← product] at text
    have equal := (learns.learned.rule_plain plain (listed' member)).2.2.injective learns merged text
    have less := older member
    rw [equal] at less
    exact Nat.lt_irrefl _ less
  have table : (trained.toPictorTokenizer order).merges = Bpe.addMerges BpeMerges.new
      (front.map (fun other => (rulePair trained other, other.merged)) ++
        (rulePair trained rule, rule.merged) :: back.map fun other => (rulePair trained other, other.merged)) := by
    rw [TrainedTokenizer.merges_eq, split, map_append, map_cons]
    rfl
  have names : (front.map fun other => (rulePair trained other, other.merged)).map Prod.fst =
      front.map (rulePair trained) := map_map
  obtain ⟨known, least⟩ := @Bpe.priority_least (front.map fun other => (rulePair trained other, other.merged))
    (back.map fun other => (rulePair trained other, other.merged)) (trained.token rule.left)
    (trained.token rule.right) rule.merged (by rw [names]; exact fresh)
  rw [names] at least
  constructor
  · exact (learns.plain_token left).2
  · exact (learns.plain_token right).2
  · rw [table]
    exact known
  · rw [table]
    exact least
  · intro z _ seen
    rw [← product] at seen
    rcases mem_cons.mp seen with same | seen
    · have whole := (Prod.mk.inj same).1
      rw [product, append_right_eq_self] at whole
      exact (learns.plain_token right).2 whole
    · obtain ⟨other, member, same⟩ := mem_map.mp seen
      obtain ⟨left', _, _⟩ := learns.learned.rule_plain plain (listed' member)
      have equal := left'.injective learns merged (Prod.mk.inj same).1
      obtain ⟨less, _⟩ := learns.learned.rule_lt (listed' member)
      have less' := older member
      rw [equal] at less
      omega
  · intro z _ seen
    rw [← product] at seen
    rcases mem_cons.mp seen with same | seen
    · have whole := (Prod.mk.inj same).2
      rw [product, append_left_eq_self] at whole
      exact (learns.plain_token left).2 whole
    · obtain ⟨other, member, same⟩ := mem_map.mp seen
      obtain ⟨_, right', _⟩ := learns.learned.rule_plain plain (listed' member)
      have equal := right'.injective learns merged (Prod.mk.inj same).2
      obtain ⟨_, less, _⟩ := learns.learned.rule_lt (listed' member)
      have less' := older member
      rw [equal] at less
      omega

/-- The characters of a word stand for its bytes. -/
theorem chars_stand (word : List Char) :
    Blocks (Stands config trained) (word.map fun char => [char]) ((Utf8.encode word).map (byteId config)) := by
  induction word with
  | nil => exact .nil
  | cons char word ih =>
      rw [map_cons, Utf8.encode_cons, map_append]
      refine .cons ?_ ih
      by_cases plain : PlainChar char
      · obtain ⟨byte, visible, encoded, token⟩ := plain.byte
        rw [encoded, ← token, ← learns.token_byteId]
        refine .token ⟨?_, ?_⟩
        · rw [spelling_byteId learns.learned]
          intro other member
          rwa [mem_singleton.mp member]
        · rw [spelling_byteId learns.learned]
          exact reduce_single _ _
      · exact .char plain

/-- The loop of the encoder makes the merges of the rules one after another. -/
theorem loop_stands (plain : PlainRules config trained.merges) (word : List Char) {front back : List MergeRule}
    (split : trained.merges = front ++ back) : ∃ symbols bound, symbols.length ≤ bound ∧
      Bpe.mergeLoop (trained.toPictorTokenizer order).merges word.length (word.map fun char => [char]) =
        Bpe.mergeLoop (trained.toPictorTokenizer order).merges bound symbols ∧
      Blocks (Stands config trained) symbols (symbolsAfter config front word) ∧
      ∀ x y, [x, y] <:+: symbols → (x, y) ∉ front.map (rulePair trained) := by
  induction front using List.reverseRecOn generalizing back with
  | nil =>
      refine ⟨word.map fun char => [char], word.length, ?_, rfl, chars_stand learns word, fun _ _ _ => not_mem_nil⟩
      rw [length_map]
  | append_singleton front rule ih =>
      rw [append_assoc, singleton_append] at split
      obtain ⟨symbols, bound, enough, run, blocks, unseen⟩ := ih split
      have listed : rule ∈ trained.merges := by
        rw [split]
        exact mem_append_right _ mem_cons_self
      have turn := @turn _ _ _ order _ learns plain _ _ split symbols.flatten
      obtain ⟨bound', enough', run', unseen'⟩ := Bpe.mergeLoop_turn turn unseen enough
      refine ⟨_, bound', enough', run.trans run', ?_, ?_⟩
      · rw [symbolsAfter_concat]
        exact (agree learns plain listed).scan (Bpe.textJoin_settled turn.solidRight)
          (learns.learned.settled _ (mem_map_of_mem listed)) blocks
      · intro x y inside member
        apply unseen' x y inside
        rw [map_append, mem_append] at member
        rcases member with seen | here
        · exact mem_cons_of_mem _ seen
        · rw [mem_singleton.mp here]
          exact mem_cons_self

omit learns

/-- The vocabulary gives the token of an id this id. -/
def Own (order : HashOrder (UInt32 × List Char)) (trained : TrainedTokenizer) (id : UInt32) : Prop :=
  (trained.toPictorTokenizer order).vocab.getId (trained.token id) = some id

variable (learns : Learns config texts trained)
include learns

theorem getId_hidden (hidden : ¬PlainChar char) : (trained.toPictorTokenizer order).vocab.getId [char] = none := by
  cases found : (trained.toPictorTokenizer order).vocab.getId [char] with
  | none => rfl
  | some id => exact absurd (learns.plain found char mem_cons_self) hidden

/-- The ids of the symbols are the blocks that they stand for. -/
theorem symbolToIds_blocks {symbols : List (List Char)} {ids : List UInt32}
    (blocks : Blocks (Stands config trained) symbols ids) (own : ∀ id ∈ ids, Own order trained id) :
    symbols.flatMap (fun symbol => Bpe.symbolToIds symbol (trained.toPictorTokenizer order).vocab) = ids := by
  induction blocks with
  | nil => rfl
  | @cons symbol block symbols ids here _ ih =>
      rw [flatMap_cons, ih fun id member => own id (mem_append_right _ member)]
      congr 1
      cases here with
      | @token id _ =>
          have found := own id (mem_append_left _ mem_cons_self)
          rw [Own] at found
          rw [Bpe.symbolToIds, found]
      | @char char hidden =>
          rw [Bpe.symbolToIds, getId_hidden learns hidden]
          dsimp only
          rw [Utf8.encode_cons, Utf8.encode_nil, append_nil, ← filterMap_eq_map]
          apply filterMap_congr
          intro byte member
          have found := own (byteId config byte) (mem_append_left _ (mem_map_of_mem member))
          rw [Own, learns.token_byteId, byteTokenString_hidden (hidden_bytes hidden member)] at found
          exact found

/-- Printable rules and own ids make the encoder agree with the training. -/
theorem encode_plain (plain : PlainRules config trained.merges) {word : List Char}
    (own : ∀ id ∈ symbolsAfter config trained.merges word, Own order trained id) :
    Bpe.bpeEncode word (trained.toPictorTokenizer order).vocab (trained.toPictorTokenizer order).merges =
      symbolsAfter config trained.merges word := by
  obtain ⟨symbols, bound, enough, run, blocks, unseen⟩ :=
    @loop_stands _ _ _ order learns plain word trained.merges [] (append_nil _).symm
  have stopped : Bpe.mergeLoop (trained.toPictorTokenizer order).merges bound symbols = symbols := by
    cases bound with
    | zero => rfl
    | succ bound =>
        rcases Bpe.mergeLoop_cases (trained.toPictorTokenizer order).merges bound symbols with
          ⟨done, _⟩ | ⟨front, x, y, back, priority, best, _⟩
        · exact done
        · have found := best.found
          rw [TrainedTokenizer.merges_eq] at found
          have seen := Bpe.getMergePriority_mem found
          rw [map_map] at seen
          exact absurd seen (unseen x y ⟨front, back, by rw [best.split]; simp⟩)
  rw [Bpe.bpeEncode, length_map, run, stopped, symbolToIds_blocks learns blocks own]

end Pictor.BpeTrainer
