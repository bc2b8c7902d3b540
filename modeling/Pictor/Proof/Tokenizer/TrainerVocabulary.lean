import Pictor.Proof.Tokenizer.BpeMerge
import Pictor.Proof.Tokenizer.TrainerRun

namespace Pictor.BpeTrainer
open PairMerge List

variable {config : TrainerConfig} {texts : List (List Char)} {rules : List MergeRule}

/-- The bytes that an id stands for. The last rule comes first. -/
def spelling (config : TrainerConfig) : List MergeRule → UInt32 → List UInt8
  | [], id => [(id - byteIdOffset config).toUInt8]
  | rule :: earlier, id =>
      if id = rule.merged then spelling config earlier rule.left ++ spelling config earlier rule.right
      else spelling config earlier id

/-- The rules merge the bytes into the id. -/
def Merges (config : TrainerConfig) (rules : List MergeRule) (bytes : List UInt8) (id : UInt32) : Prop :=
  reduce (rules.map ruleJoin) (bytes.map (byteId config)) = [id]

/-- An id of a byte or of a rule. -/
def Known (config : TrainerConfig) (rules : List MergeRule) (id : UInt32) : Prop :=
  (∃ byte, id = byteId config byte) ∨ ∃ rule ∈ rules, id = rule.merged

variable {rule : MergeRule} {bytes : List UInt8} {id : UInt32}

theorem ruleJoin_some {first second merged : UInt32} :
    ruleJoin rule first second = some merged ↔ first = rule.left ∧ second = rule.right ∧ merged = rule.merged :=
  join_some

theorem symbols_known {bytes : List UInt8} {id : UInt32}
    (member : id ∈ reduce (rules.map ruleJoin) (bytes.map (byteId config))) : Known config rules id := by
  induction rules using List.reverseRecOn with
  | nil =>
      obtain ⟨byte, _, rfl⟩ := mem_map.mp member
      exact Or.inl ⟨byte, rfl⟩
  | append_singleton rules rule ih =>
      rw [map_append, reduce_append] at member
      rcases mem_scan member with old | ⟨first, second, joined⟩
      · refine (ih old).imp_right ?_
        rintro ⟨other, inside, same⟩
        exact ⟨other, mem_append_left _ inside, same⟩
      · obtain ⟨_, _, rfl⟩ := ruleJoin_some.mp joined
        exact Or.inr ⟨rule, mem_append_right _ mem_cons_self, rfl⟩

variable (learned : Learned config texts rules)
include learned

/-- A rule is learned from a text that has its pair. -/
theorem Learned.rule_learned (member : rule ∈ rules) :
    ∃ before after text, rules = before ++ rule :: after ∧ Learned config texts before ∧ text ∈ texts ∧
      [rule.left, rule.right] <:+: symbolsAfter config before text := by
  induction learned with
  | nil => cases member
  | @snoc rules last text earlier _ counted occurs ih =>
      rcases mem_append.mp member with old | new
      · obtain ⟨before, after, other, rfl, learned, counted', occurs'⟩ := ih old
        exact ⟨before, after ++ [last], other, append_assoc _ _ _, learned, counted', occurs'⟩
      · rw [mem_singleton.mp new]
        exact ⟨rules, [], text, rfl, earlier, counted, occurs⟩

/-- The rules before a rule are learned, and their number gives the id of its product. -/
theorem Learned.front {front back : List MergeRule} {rule : MergeRule} (split : rules = front ++ rule :: back) :
    Learned config texts front ∧ rule.merged.toNat = firstId config + front.length := by
  induction learned generalizing back with
  | nil => exact absurd split.symm (append_ne_nil_of_right_ne_nil _ (cons_ne_nil _ _))
  | @snoc rules last text earlier id counted occurs ih =>
      rcases eq_nil_or_concat back with rfl | ⟨back, other, rfl⟩
      · obtain ⟨rfl, same⟩ := append_inj' split rfl
        obtain ⟨rfl, _⟩ := List.cons.inj same
        exact ⟨earlier, id⟩
      · rw [concat_eq_append, ← cons_append, ← append_assoc] at split
        exact ih (append_inj' split rfl).1

theorem Learned.settled : ∀ join ∈ rules.map ruleJoin, Settled join := by
  intro join member first second merged joined next
  obtain ⟨rule, inside, rfl⟩ := mem_map.mp member
  obtain ⟨left, _⟩ := learned.rule_lt inside
  obtain ⟨_, _, rfl⟩ := ruleJoin_some.mp joined
  cases again : ruleJoin rule rule.merged next with
  | none => rfl
  | some other =>
      rw [← (ruleJoin_some.mp again).1] at left
      exact absurd left (Nat.lt_irrefl _)

omit learned

theorem spelling_ne_nil (config : TrainerConfig) (earlier : List MergeRule) (id : UInt32) :
    spelling config earlier id ≠ [] := by
  induction earlier generalizing id with
  | nil => exact cons_ne_nil _ _
  | cons rule earlier ih =>
      rw [spelling]
      split
      · exact append_ne_nil_of_left_ne_nil (ih rule.left) _
      · exact ih id

variable (learned : Learned config texts rules)
include learned

theorem spelling_byteId (byte : UInt8) : spelling config rules.reverse (byteId config byte) = [byte] := by
  have old : ∀ rule ∈ rules, byteId config byte ≠ rule.merged := by
    intro rule member same
    obtain ⟨_, _, low, _⟩ := learned.rule_lt member
    have bound := byte.toNat_lt
    rw [← same, byteId_toNat, firstId] at low
    omega
  have base (earlier : List MergeRule) (older : ∀ rule ∈ earlier, byteId config byte ≠ rule.merged) :
      spelling config earlier (byteId config byte) = [byte] := by
    induction earlier with
    | nil => rw [spelling, byteId, UInt32.add_sub_cancel, UInt8.toUInt8_toUInt32]
    | cons rule earlier ih =>
        obtain ⟨here, others⟩ := forall_mem_cons.mp older
        rw [spelling, if_neg here, ih others]
  exact base _ fun rule member => old rule (mem_reverse.mp member)

/-- A product spells what its parts spell. -/
theorem Learned.spelling_merged (member : rule ∈ rules) : spelling config rules.reverse rule.merged =
      spelling config rules.reverse rule.left ++ spelling config rules.reverse rule.right := by
  induction learned with
  | nil => cases member
  | @snoc rules last text earlier id counted occurs ih =>
      have apart {other : UInt32} (older : other.toNat < firstId config + rules.length) : other ≠ last.merged := by
        rintro rfl
        omega
      rw [reverse_append, reverse_singleton, singleton_append]
      rcases mem_append.mp member with old | new
      · obtain ⟨left, right, _, high⟩ := earlier.rule_lt old
        rw [spelling, if_neg (apart high), spelling, if_neg (apart (by omega)), spelling, if_neg (apart (by omega)),
          ih old]
      · have inside := occurs.subset
        have left := apart (earlier.ids_lt text _ (inside mem_cons_self))
        have right := apart (earlier.ids_lt text _ (inside (mem_cons_of_mem _ mem_cons_self)))
        rw [mem_singleton.mp new]
        rw [spelling, if_pos rfl, spelling, if_neg left, spelling, if_neg right]

theorem Learned.spells : ∀ join ∈ rules.map ruleJoin, Spells (spelling config rules.reverse) join := by
  intro join member first second merged joined
  obtain ⟨rule, inside, rfl⟩ := mem_map.mp member
  obtain ⟨rfl, rfl, rfl⟩ := ruleJoin_some.mp joined
  exact learned.spelling_merged inside

/-- The symbols of a text spell its bytes. -/
theorem Learned.symbols_spelling (bytes : List UInt8) :
    (reduce (rules.map ruleJoin) (bytes.map (byteId config))).flatMap (spelling config rules.reverse) = bytes := by
  rw [reduce_spelling learned.settled learned.spells, flatMap_map]
  have single : (fun byte => spelling config rules.reverse (byteId config byte)) = fun byte => [byte] := by
    funext byte
    exact spelling_byteId learned byte
  rw [single, flatMap_singleton']

/-- Merged bytes are what the id spells. -/
theorem Merges.spelling (merges : Merges config rules bytes id) :
    BpeTrainer.spelling config rules.reverse id = bytes := by
  have spelled := learned.symbols_spelling bytes
  rw [Merges] at merges
  rwa [merges, flatMap_singleton] at spelled

/-- A part of the symbols of bytes stands for a part of the bytes. -/
theorem reduce_part {bytes : List UInt8} {front middle back : List UInt32}
    (split : reduce (rules.map ruleJoin) (bytes.map (byteId config)) = front ++ middle ++ back) :
    ∃ part : List UInt8, reduce (rules.map ruleJoin) (part.map (byteId config)) = middle := by
  obtain ⟨left, right, same, first, _⟩ := reduce_split learned.settled split
  obtain ⟨left', middle', same', _, second⟩ := reduce_split learned.settled first
  obtain ⟨start, rest, rfl, start', _⟩ := map_eq_append_iff.mp same
  rw [same'] at start'
  obtain ⟨_, part, _, _, mapped⟩ := map_eq_append_iff.mp start'
  rw [← mapped] at second
  exact ⟨part, second⟩

omit learned

/-- Later rules keep the bytes of an id. -/
theorem Merges.later {before : List MergeRule} (merges : Merges config before bytes id) (after : List MergeRule) :
    Merges config (before ++ after) bytes id := by
  rw [Merges] at merges ⊢
  rw [map_append, reduce_append, merges, reduce_single]

variable (learned : Learned config texts rules)
include learned

theorem Learned.symbols_merges {text : List Char} (member : id ∈ symbolsAfter config rules text) :
    Merges config rules (spelling config rules.reverse id) id := by
  obtain ⟨front, back, split⟩ := append_of_mem member
  rw [← singleton_append, ← append_assoc] at split
  obtain ⟨part, merges⟩ := reduce_part learned split
  rw [Merges.spelling learned merges]
  exact merges

/-- The parts of a rule and its product are merged from bytes. -/
theorem Learned.rule_merges (member : rule ∈ rules) :
    Merges config rules (spelling config rules.reverse rule.left) rule.left ∧
      Merges config rules (spelling config rules.reverse rule.right) rule.right ∧
      Merges config rules (spelling config rules.reverse rule.merged) rule.merged := by
  obtain ⟨before, after, text, rfl, earlier, _, front, back, split⟩ := learned.rule_learned member
  have merges {bytes : List UInt8} {id : UInt32} (merged : Merges config (before ++ rule :: after) bytes id) :
      Merges config (before ++ rule :: after) (spelling config (before ++ rule :: after).reverse id) id := by
    rw [Merges.spelling learned merged]
    exact merged
  obtain ⟨both, reduced⟩ := reduce_part earlier split.symm
  obtain ⟨left, leftMerged⟩ := @reduce_part _ _ _ earlier both [] [rule.left] [rule.right] reduced
  obtain ⟨right, rightMerged⟩ := @reduce_part _ _ _ earlier both [rule.left] [rule.right] [] reduced
  have whole : Merges config (before ++ rule :: after) both rule.merged := by
    have joined : scan (ruleJoin rule) [rule.left, rule.right] = [rule.merged] := by
      have settled := learned.settled _ (mem_map_of_mem member)
      rw [scan_joined settled (ruleJoin_some.mpr ⟨rfl, rfl, rfl⟩)]
      rfl
    rw [Merges, map_append, reduce_append, reduced, map_cons]
    change reduce (after.map ruleJoin) (scan (ruleJoin rule) [rule.left, rule.right]) = _
    rw [joined, reduce_single]
  exact ⟨merges (Merges.later leftMerged _), merges (Merges.later rightMerged _), merges whole⟩

/-- A learned product ends as a part of a symbol of a text. -/
theorem Learned.rule_within (member : rule ∈ rules) : ∃ text ∈ texts, ∃ id ∈ symbolsAfter config rules text,
      spelling config rules.reverse rule.merged <:+: spelling config rules.reverse id := by
  obtain ⟨before, after, text, rfl, _, counted, occurs⟩ := learned.rule_learned member
  have settled := learned.settled
  have spells := learned.spells
  rw [map_append, map_cons] at settled spells
  have here := settled _ (mem_append_right _ mem_cons_self)
  have merged : rule.merged ∈ scan (ruleJoin rule) (symbolsAfter config before text) := by
    rcases (scanned_scan here (symbolsAfter config before text)).unchanged_or_merged with none | ⟨x, y, id, joined, inside⟩
    · have joined := none _ _ occurs
      rw [ruleJoin_some.mpr ⟨rfl, rfl, rfl⟩] at joined
      cases joined
    · rwa [(ruleJoin_some.mp joined).2.2] at inside
  have after' {join : UInt32 → UInt32 → Option UInt32} (inside : join ∈ after.map ruleJoin) :
      join ∈ before.map ruleJoin ++ ruleJoin rule :: after.map ruleJoin :=
    mem_append_right _ (mem_cons_of_mem _ inside)
  obtain ⟨id, inside, part⟩ := reduce_within (fun join inside => settled join (after' inside))
    (fun join inside => spells join (after' inside)) merged
  refine ⟨text, counted, id, ?_, part⟩
  rw [symbolsAfter, map_append, reduce_append]
  exact inside

end Pictor.BpeTrainer

namespace Pictor
open List

open String (utf8EncodeChar)

theorem toNat_ofUInt8 (byte : UInt8) : (Char.ofUInt8 byte).toNat = byte.toNat := UInt8.toNat_toUInt32 byte

theorem ofNat_byte (byte : UInt8) : Char.ofNat byte.toNat = Char.ofUInt8 byte := by
  rw [← toNat_ofUInt8, Char.ofNat_toNat]

/-- A character is printable ASCII. -/
def PlainChar (char : Char) : Prop := 0x20 ≤ char.toNat ∧ char.toNat ≤ 0x7E

/-- A printable character is one byte, and it is the token of this byte. -/
theorem PlainChar.byte {char : Char} (plain : PlainChar char) :
    ∃ byte, isPrintable byte = true ∧ utf8EncodeChar char = [byte] ∧ byteTokenString byte = [char] := by
  obtain ⟨low, high⟩ := plain
  have number : (UInt8.ofNat char.toNat).toNat = char.toNat := UInt8.toNat_ofNat_of_lt' (by change _ < 256; omega)
  have same : Char.ofUInt8 (UInt8.ofNat char.toNat) = char := by
    rw [← Char.toNat_inj, toNat_ofUInt8, number]
  have visible : isPrintable (UInt8.ofNat char.toNat) = true := by
    rw [isPrintable, Bool.and_eq_true, decide_eq_true_iff, decide_eq_true_iff, UInt8.le_iff_toNat_le,
      UInt8.le_iff_toNat_le, number]
    exact ⟨low, high⟩
  refine ⟨UInt8.ofNat char.toNat, visible, ?_, ?_⟩
  · have encoded := @Utf8.utf8EncodeChar_ofUInt8 (UInt8.ofNat char.toNat)
      (UInt8.lt_iff_toNat_lt.mpr (by rw [number]; change _ < 128; omega))
    rwa [same] at encoded
  · rw [byteTokenString, if_pos visible, ofNat_byte, same]

variable {byte : UInt8}

/-- A character that is not printable has no printable byte. -/
theorem hidden_bytes {char : Char} (hidden : ¬PlainChar char) (member : byte ∈ utf8EncodeChar char) :
    isPrintable byte = false := by
  by_contra visible
  rw [Bool.not_eq_false, isPrintable, Bool.and_eq_true, decide_eq_true_iff, decide_eq_true_iff,
    UInt8.le_iff_toNat_le, UInt8.le_iff_toNat_le] at visible
  obtain ⟨low, high⟩ := visible
  change 0x20 ≤ _ at low
  change _ ≤ 0x7E at high
  have ascii : byte < 128 := UInt8.lt_iff_toNat_lt.mpr (by change _ < 128; omega)
  obtain ⟨before, after, parts⟩ := append_of_mem member
  obtain ⟨rfl, rfl⟩ := Utf8.utf8EncodeChar_split ascii parts
  have first := Utf8.decodeChar?_append char []
  have other := Utf8.decodeChar?_append (Char.ofUInt8 byte) []
  rw [Utf8.utf8EncodeChar_ofUInt8 ascii] at other
  rw [parts, nil_append, other] at first
  apply hidden
  rw [← Option.some.inj first]
  rw [PlainChar, toNat_ofUInt8]
  exact ⟨low, high⟩

theorem hexDigit_plain {value : Nat} (small : value < 16) : PlainChar (hexDigit value) := by
  have all : ∀ value < 16, 0x20 ≤ (hexDigit value).toNat ∧ (hexDigit value).toNat ≤ 0x7E := by decide
  exact all value small

/-- The token of a byte is printable, and not empty. -/
theorem byteTokenString_plain (byte : UInt8) :
    (∀ char ∈ byteTokenString byte, PlainChar char) ∧ byteTokenString byte ≠ [] := by
  rw [byteTokenString]
  split
  case isTrue visible =>
    rw [isPrintable, Bool.and_eq_true, decide_eq_true_iff, decide_eq_true_iff, UInt8.le_iff_toNat_le,
      UInt8.le_iff_toNat_le] at visible
    refine ⟨?_, nofun⟩
    intro char member
    rw [mem_singleton.mp member, ofNat_byte, PlainChar, toNat_ofUInt8]
    exact visible
  case isFalse =>
    refine ⟨?_, nofun⟩
    have high := hexDigit_plain (show byte.toNat / 16 < 16 by have bound := byte.toNat_lt; omega)
    have low := hexDigit_plain (show byte.toNat % 16 < 16 by omega)
    rw [Bpe.byteFallbackId]
    intro char member
    simp only [mem_cons, not_mem_nil, or_false] at member
    rcases member with rfl | rfl | rfl | rfl | rfl | rfl
    · exact ⟨by decide, by decide⟩
    · exact ⟨by decide, by decide⟩
    · exact ⟨by decide, by decide⟩
    · exact high
    · exact low
    · exact ⟨by decide, by decide⟩

/-- Only the token of a byte that is not printable has more than one character. -/
theorem byteTokenString_visible (visible : isPrintable byte = true) :
    ∃ char, byteTokenString byte = [char] ∧ utf8EncodeChar char = [byte] := by
  have ascii : byte < 128 := by
    rw [isPrintable, Bool.and_eq_true, decide_eq_true_iff, decide_eq_true_iff, UInt8.le_iff_toNat_le,
      UInt8.le_iff_toNat_le] at visible
    exact UInt8.lt_iff_toNat_lt.mpr (Nat.lt_of_le_of_lt visible.2 (by decide))
  refine ⟨Char.ofUInt8 byte, ?_, Utf8.utf8EncodeChar_ofUInt8 ascii⟩
  rw [byteTokenString, if_pos visible, ofNat_byte]

theorem byteTokenString_hidden (hidden : isPrintable byte = false) :
    byteTokenString byte = Bpe.byteFallbackId byte := by
  rw [byteTokenString, hidden]
  rfl

namespace TrainedTokenizer

variable {order : HashOrder (UInt32 × List Char)} {trained : TrainedTokenizer}

theorem vocab_tokenToId (order : HashOrder (UInt32 × List Char)) (trained : TrainedTokenizer) :
    (trained.toPictorTokenizer order).vocab.tokenToId =
      InsertAll.insertAll ((order.iterate 0 (mapEntries trained.vocab)).map Prod.swap) ∅ := by
  have fold (entries : List (UInt32 × List Char)) (vocab : Vocabulary) :
      (entries.foldl (fun vocabulary entry =>
        if entry.2.head? = some '<' ∧ entry.2.getLast? = some '>' then vocabulary.addSpecial entry.2 entry.1
        else vocabulary.insert entry.2 entry.1) vocab).tokenToId =
        InsertAll.insertAll (entries.map Prod.swap) vocab.tokenToId := by
    induction entries generalizing vocab with
    | nil => rfl
    | cons entry entries ih =>
        rw [foldl_cons, ih, map_cons, InsertAll.insertAll_cons]
        split <;> rfl
  exact fold _ Vocabulary.new

/-- The vocabulary gives a token an id that has this token. -/
theorem getId_token {token : List Char} {id : UInt32}
    (found : (trained.toPictorTokenizer order).vocab.getId token = some id) : trained.vocab.lookup id = some token := by
  rw [Vocabulary.getId, vocab_tokenToId, InsertAll.lookup_insertAll_last, AList.lookup_empty, Option.or_none,
    Option.map_eq_some_iff] at found
  obtain ⟨entry, last, rfl⟩ := found
  have member := mem_of_getLast? last
  rw [mem_filter, decide_eq_true_iff] at member
  obtain ⟨member, rfl⟩ := member
  obtain ⟨original, listed, rfl⟩ := mem_map.mp member
  rw [HashOrder.mem] at listed
  exact BpeTrainer.mem_mapEntries.mp listed

/-- A token of an id has an id. -/
theorem getId_some {token : List Char} {id : UInt32} (known : trained.vocab.lookup id = some token) :
    ∃ other, (trained.toPictorTokenizer order).vocab.getId token = some other := by
  rw [Vocabulary.getId, vocab_tokenToId]
  apply Option.isSome_iff_exists.mp
  rw [AList.lookup_isSome, InsertAll.mem_insertAll, map_map]
  left
  refine mem_map.mpr ⟨(id, token), ?_, rfl⟩
  rw [HashOrder.mem]
  exact BpeTrainer.mem_mapEntries.mpr known

theorem merges_eq (order : HashOrder (UInt32 × List Char)) (trained : TrainedTokenizer) :
    (trained.toPictorTokenizer order).merges = Bpe.addMerges BpeMerges.new
      (trained.merges.map fun rule => ((trained.token rule.left, trained.token rule.right), rule.merged)) := by
  rw [Bpe.addMerges, foldl_map]
  rfl

end TrainedTokenizer

namespace BpeTrainer
open PairMerge

variable {config : TrainerConfig} {texts : List (List Char)} {rules : List MergeRule} {id : UInt32}

/-- The token of an id is made of the tokens of its bytes. -/
theorem Learned.token {token : UInt32 → List Char} (learned : Learned config texts rules)
    (bytes : ∀ byte, token (byteId config byte) = byteTokenString byte)
    (merged : ∀ rule ∈ rules, token rule.merged = token rule.left ++ token rule.right)
    (known : Known config rules id) : token id = (spelling config rules.reverse id).flatMap byteTokenString := by
  induction learned generalizing id with
  | nil =>
      rcases known with ⟨byte, rfl⟩ | ⟨rule, none, _⟩
      · have single : spelling config [].reverse (byteId config byte) = [byte] := spelling_byteId (@Learned.nil config []) byte
        rw [single, flatMap_singleton, bytes]
      · cases none
  | @snoc rules last text earlier id' counted occurs ih =>
      have before {other : UInt32} := @ih other fun rule member => merged rule (mem_append_left _ member)
      rw [reverse_append, reverse_singleton, singleton_append, spelling]
      by_cases same : id = last.merged
      · have left := symbols_known (occurs.subset mem_cons_self)
        have right := symbols_known (occurs.subset (mem_cons_of_mem _ mem_cons_self))
        rw [if_pos same, same, merged last (mem_append_right _ mem_cons_self), before left, before right,
          flatMap_append]
      · rw [if_neg same]
        apply before
        rcases known with byte | ⟨rule, member, rfl⟩
        · exact Or.inl byte
        · rcases mem_append.mp member with old | new
          · exact Or.inr ⟨rule, old, rfl⟩
          · rw [mem_singleton.mp new] at same
            exact absurd rfl same

/-- The rules and the tokens of a trained tokenizer are learned. -/
structure Learns (config : TrainerConfig) (texts : List (List Char)) (trained : TrainedTokenizer) : Prop where
  learned : Learned config texts trained.merges
  tokens : Tokens config trained.merges trained.vocab

section Learns

variable {trained : TrainedTokenizer} {order : HashOrder (UInt32 × List Char)} {token : List Char}

variable (learns : Learns config texts trained)
include learns

theorem Learns.lookup (known : Known config trained.merges id) :
    trained.vocab.lookup id = some (trained.token id) := by
  have found : ∃ token, trained.vocab.lookup id = some token := by
    rcases known with ⟨byte, rfl⟩ | ⟨rule, member, rfl⟩
    · exact ⟨_, (learns.tokens.lookup _ _).mpr (Or.inr (Or.inl ⟨byte, rfl, rfl⟩))⟩
    · exact ⟨_, (learns.tokens.lookup _ _).mpr (Or.inr (Or.inr ⟨rule, member, rfl, rfl⟩))⟩
  obtain ⟨token, found⟩ := found
  rw [TrainedTokenizer.token, found]
  rfl

theorem Learns.token_byteId (byte : UInt8) : trained.token (byteId config byte) = byteTokenString byte := by
  have found := (learns.tokens.lookup (byteId config byte) (byteTokenString byte)).mpr (Or.inr (Or.inl ⟨byte, rfl, rfl⟩))
  rw [TrainedTokenizer.token, found]
  rfl

theorem Learns.token_merged {rule : MergeRule} (member : rule ∈ trained.merges) :
    trained.token rule.merged = trained.token rule.left ++ trained.token rule.right := by
  have found := (learns.tokens.lookup rule.merged rule.mergedText).mpr (Or.inr (Or.inr ⟨rule, member, rfl, rfl⟩))
  rw [TrainedTokenizer.token, found]
  exact learns.tokens.merged rule member

/-- The token of an id is made of the tokens of its bytes. -/
theorem Learns.token_spelling (known : Known config trained.merges id) :
    trained.token id = (spelling config trained.merges.reverse id).flatMap byteTokenString :=
  learns.learned.token learns.token_byteId (fun _ member => learns.token_merged member) known

/-- Each token of the vocabulary is printable. -/
theorem Learns.plain (found : (trained.toPictorTokenizer order).vocab.getId token = some id) :
    ∀ char ∈ token, PlainChar char := by
  have entry := TrainedTokenizer.getId_token found
  have spelled (known : Known config trained.merges id) : ∀ char ∈ token, PlainChar char := by
    have same := learns.lookup known
    rw [entry, learns.token_spelling known, Option.some.injEq] at same
    rw [same]
    intro char member
    obtain ⟨byte, _, inside⟩ := mem_flatMap.mp member
    exact (byteTokenString_plain byte).1 char inside
  rcases (learns.tokens.lookup id token).mp entry with special | ⟨byte, same, _⟩ | ⟨rule, member, same, _⟩
  · rw [specialTokens] at special
    split at special
    case isTrue =>
      have all : ∀ token ∈ ["<unk>".toList, "<bos>".toList, "<eos>".toList, "<pad>".toList],
          token.all (fun char => 0x20 ≤ char.toNat ∧ char.toNat ≤ 0x7E) = true := by decide
      intro char inside
      have known := all_eq_true.mp (all token (@mem_map_of_mem _ _ _ _ Prod.snd special)) char inside
      have plain := of_decide_eq_true known
      exact plain
    case isFalse => cases special
  · exact spelled (Or.inl ⟨byte, same⟩)
  · exact spelled (Or.inr ⟨rule, member, same⟩)

end Learns

end BpeTrainer

end Pictor
