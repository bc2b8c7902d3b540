import Pictor.Construction.Image.Qwen3Tokenizer
import Pictor.Proof.Tokenizer.BpeMerge

namespace Pictor.Qwen3Tokenizer
open Bpe PairMerge List

/-- A pair with the id of its product. -/
abbrev Rule := (List Char × List Char) × UInt32

def product (rule : Rule) : List Char := rule.1.1 ++ rule.1.2

/-- The rules as training makes them. -/
structure TableFits (rules : List Rule) : Prop where
  pairs : (rules.map Prod.fst).Nodup
  products : (rules.map product).Nodup
  parts : ∀ front rule back, rules = front ++ rule :: back → ∀ part, part = rule.1.1 ∨ part = rule.1.2 →
    2 ≤ part.length → ∃ earlier ∈ front, part = product earlier

/-- The vocabulary has the characters of the word and the products of the rules. -/
structure VocabFits (vocab : Vocabulary) (rules : List Rule) (word : List Char) : Prop where
  characters : ∀ c ∈ word, vocab.getId [c] ≠ none
  products : ∀ rule ∈ rules, vocab.getId (product rule) ≠ none

/-- Both encoders cut the word into the same tokens. -/
structure EncodersAgree (rules : List Rule) (vocab : Vocabulary) (word : List Char) : Prop where
  segments : bpe (mergeRanks (rules.map Prod.fst)) word =
    mergeLoop (addMerges BpeMerges.new rules) word.length (word.map fun c => [c])
  ids : (bpe (mergeRanks (rules.map Prod.fst)) word).mapM vocab.getId =
    some (bpeEncode word vocab (addMerges BpeMerges.new rules))

variable {rules : List Rule} {pairs : List (List Char × List Char)} {ranks : MergeRanks} {word : List (List Char)}
  {a b x y : List Char}

/-- The place of a pair. -/
def place (pairs : List (List Char × List Char)) (pair : List Char × List Char) : Option Nat :=
  pairs.findIdx? fun other => other = pair

theorem place_none : place pairs (x, y) = none ↔ (x, y) ∉ pairs := by
  rw [place, findIdx?_eq_none_iff]
  constructor
  · intro apart member
    exact of_decide_eq_false (apart _ member) rfl
  · intro absent other member
    apply decide_eq_false
    rintro rfl
    exact absent member

variable {index count : Nat}

theorem mem_take_place : (x, y) ∈ pairs.take index ↔ ∃ other, other < index ∧ place pairs (x, y) = some other := by
  constructor
  · intro member
    obtain ⟨other, known⟩ := Option.ne_none_iff_exists'.mp (mt place_none.mp (not_not_intro member))
    have inside := (findIdx?_eq_some_iff_getElem.mp known).1
    have few := length_take_le index pairs
    refine ⟨other, by omega, ?_⟩
    have whole := @findIdx?_append _ (pairs.take index) (pairs.drop index) fun other => decide (other = (x, y))
    rw [take_append_drop, ← place, ← place, known, Option.some_or] at whole
    exact whole
  · rintro ⟨other, before, known⟩
    obtain ⟨inside, here, _⟩ := findIdx?_eq_some_iff_getElem.mp known
    exact mem_take_iff_getElem.mpr ⟨other, by omega, of_decide_eq_true here⟩

theorem place_concat (pair : List Char × List Char) :
    place (pairs ++ [pair]) (x, y) = (place pairs (x, y)).or (if pair = (x, y) then some pairs.length else none) := by
  rw [place, findIdx?_append, place, findIdx?_cons, findIdx?_nil]
  by_cases same : pair = (x, y) <;> simp [same]

theorem mergeOrder_eq (nodup : (rules.map Prod.fst).Nodup) :
    Ordered (addMerges BpeMerges.new rules) ∧ (addMerges BpeMerges.new rules).mergeOrder = rules.map Prod.fst := by
  induction rules using List.reverseRecOn with
  | nil => exact ⟨fun pair => by simp [addMerges, BpeMerges.new], rfl⟩
  | append_singleton rules rule ih =>
      rw [map_append, nodup_append] at nodup
      obtain ⟨ordered, order⟩ := ih nodup.1
      obtain ⟨ordered', order'⟩ := addMerge_ordered ordered rule.1 rule.2
      have fresh : rule.1 ∉ rules.map Prod.fst := fun member =>
        nodup.2.2 _ member _ (mem_singleton_self rule.1) rfl
      have whole : addMerges BpeMerges.new (rules ++ [rule]) =
          (addMerges BpeMerges.new rules).addMerge rule.1.1 rule.1.2 rule.2 := foldl_concat _ _ _ _
      rw [whole]
      rw [order, if_neg fresh] at order'
      exact ⟨ordered', by rw [order', map_append]; rfl⟩

/-- The priority of a pair is its place. -/
theorem getMergePriority_eq (nodup : (rules.map Prod.fst).Nodup) (x y : List Char) :
    (addMerges BpeMerges.new rules).getMergePriority x y = place (rules.map Prod.fst) (x, y) := by
  obtain ⟨ordered, order⟩ := mergeOrder_eq nodup
  rw [BpeMerges.getMergePriority, order, ← place]
  split
  · rfl
  · rename_i absent
    rw [ordered, order] at absent
    exact (place_none.mpr absent).symm

/-- The rank of a pair is its place as a number of 32 bits. -/
theorem lookup_mergeRanks (nodup : pairs.Nodup) (x y : List Char) :
    (mergeRanks pairs).lookup (x, y) = (place pairs (x, y)).map UInt32.ofNat := by
  induction pairs using List.reverseRecOn with
  | nil => rfl
  | append_singleton pairs pair ih =>
      rw [nodup_append] at nodup
      rw [mergeRanks, zipIdx_append, foldl_append, ← mergeRanks, place_concat, Nat.zero_add, zipIdx_singleton,
        foldl_cons, foldl_nil]
      by_cases same : pair = (x, y)
      · subst same
        have absent : (x, y) ∉ pairs := fun member => nodup.2.2 _ member _ (mem_singleton_self _) rfl
        rw [AList.lookup_insert, place_none.mpr absent, if_pos rfl]
        rfl
      · rw [AList.lookup_insert_ne (Ne.symm same), ih nodup.1, if_neg same, Option.or_none]

theorem mem_zip_tail : (x, y) ∈ word.zip word.tail ↔ [x, y] <:+: word := by
  induction word with
  | nil => exact iff_of_false not_mem_nil (no_pair_short (Nat.zero_lt_succ 1))
  | cons first word ih =>
      cases word with
      | nil => exact iff_of_false not_mem_nil (no_pair_short (Nat.lt_succ_self 1))
      | cons second rest =>
          rw [tail_cons, zip_cons_cons, mem_cons, Prod.mk.injEq, pair_infix_cons, ← ih, tail_cons]

/-- What the search has found among some pairs. -/
structure Best (ranks : MergeRanks) (seen : List (List Char × List Char))
    (best : UInt32 × Option (List Char × List Char)) : Prop where
  least : ∀ pair ∈ seen, ∀ rank, ranks.lookup pair = some rank → best.1 ≤ rank
  none : best.2 = none → best.1 = 4294967295
  found : ∀ pair, best.2 = some pair → pair ∈ seen ∧ ranks.lookup pair = some best.1

theorem best_fold (ranks : MergeRanks) (seen : List (List Char × List Char)) :
    Best ranks seen (seen.foldl (bestStep ranks) (4294967295, none)) := by
  induction seen using List.reverseRecOn with
  | nil => exact ⟨nofun, fun _ => rfl, nofun⟩
  | append_singleton seen pair ih =>
      rw [foldl_concat]
      generalize seen.foldl (bestStep ranks) (4294967295, none) = best at ih ⊢
      have kept (least : ∀ rank, ranks.lookup pair = some rank → best.1 ≤ rank) : Best ranks (seen ++ [pair]) best := by
        refine ⟨fun other member rank known => ?_, ih.none, fun other same => ?_⟩
        · rcases mem_append.mp member with before | last
          · exact ih.least other before rank known
          · rw [mem_singleton.mp last] at known
            exact least rank known
        · exact ⟨mem_append_left _ (ih.found other same).1, (ih.found other same).2⟩
      rw [bestStep]
      cases known : ranks.lookup pair with
      | none => exact kept fun rank same => by rw [known] at same; cases same
      | some rank =>
          by_cases better : rank < best.1
          · simp only [if_pos better]
            refine ⟨fun other member rank' known' => ?_, nofun, fun other same => ?_⟩
            · rcases mem_append.mp member with before | last
              · exact UInt32.le_of_lt (UInt32.lt_of_lt_of_le better (ih.least other before rank' known'))
              · rw [mem_singleton.mp last, known] at known'
                exact UInt32.le_of_eq (Option.some.inj known')
            · cases same
              exact ⟨mem_append_right _ (mem_singleton_self _), known⟩
          · simp only [if_neg better]
            refine kept fun rank' same => ?_
            rw [known] at same
            exact Option.some.inj same ▸ UInt32.not_lt.mp better

/-- Every rank of a table that is not too long is its place. -/
theorem place_toNat (short : pairs.length < 2 ^ 32) (known : place pairs (x, y) = some index) :
    (UInt32.ofNat index).toNat = index ∧ UInt32.ofNat index ≠ 4294967295 := by
  have inside : index < pairs.length := (findIdx?_eq_some_iff_getElem.mp known).1
  have value : (UInt32.ofNat index).toNat = index := UInt32.toNat_ofNat_of_lt' (show index < 2 ^ 32 by omega)
  refine ⟨value, fun top => ?_⟩
  rw [top] at value
  have top : (4294967295 : UInt32).toNat = 4294967295 := rfl
  omega

/-- The best pair has the first place of all adjacent pairs. -/
theorem bestPair_cases (nodup : pairs.Nodup) (short : pairs.length < 2 ^ 32) (word : List (List Char)) :
    match bestPair (mergeRanks pairs) word with
    | none => ∀ x y, [x, y] <:+: word → place pairs (x, y) = none
    | some (a, b) => [a, b] <:+: word ∧ ∃ index, place pairs (a, b) = some index ∧
        ∀ x y other, [x, y] <:+: word → place pairs (x, y) = some other → index ≤ other := by
  have best := best_fold (mergeRanks pairs) (word.zip word.tail)
  rw [bestPair]
  generalize (word.zip word.tail).foldl (bestStep (mergeRanks pairs)) (4294967295, none) = result at best
  cases found : result.2 with
  | none =>
      intro x y inside
      cases known : place pairs (x, y) with
      | none => rfl
      | some index =>
          have rank : (mergeRanks pairs).lookup (x, y) = some (UInt32.ofNat index) := by
            rw [lookup_mergeRanks nodup, known, Option.map_some]
          have least := best.least (x, y) (mem_zip_tail.mpr inside) _ rank
          rw [best.none found] at least
          have top := UInt32.le_iff_toNat_le.mp least
          have size := (UInt32.ofNat index).toNat_lt
          have same : UInt32.ofNat index = 4294967295 := by
            apply UInt32.toNat_inj.mp
            change _ = 4294967295
            change 4294967295 ≤ _ at top
            omega
          exact absurd same (place_toNat short known).2
  | some pair =>
      obtain ⟨a, b⟩ := pair
      obtain ⟨member, known⟩ := best.found (a, b) found
      rw [lookup_mergeRanks nodup, Option.map_eq_some_iff] at known
      obtain ⟨index, known, same⟩ := known
      refine ⟨mem_zip_tail.mp member, index, known, fun x y other inside known' => ?_⟩
      have rank : (mergeRanks pairs).lookup (x, y) = some (UInt32.ofNat other) := by
        rw [lookup_mergeRanks nodup, known', Option.map_some]
      have least := best.least (x, y) (mem_zip_tail.mpr inside) _ rank
      rw [← same] at least
      have order := UInt32.le_iff_toNat_le.mp least
      rwa [(place_toNat short known).1, (place_toNat short known').1] at order

/-- Merging all occurrences is one scan. -/
theorem mergeAll_eq (solid : b ≠ []) (word : List (List Char)) : mergeAll a b word = scan (textJoin (a, b)) word := by
  fun_induction mergeAll a b word with
  | case1 x y rest same ih =>
      obtain ⟨rfl, rfl⟩ := same
      rw [ih, scan_joined (textJoin_settled solid) (textJoin_some.mpr ⟨rfl, rfl⟩)]
  | case2 x y rest different ih =>
      rw [ih, scan_apart (textJoin_none.mpr fun same => different (Prod.mk.inj same))]
  | case3 word short =>
      match word with
      | [] => rfl
      | [_] => rfl
      | x :: y :: rest => exact absurd rfl (short x y rest)

/-- The rules in front of a pair. -/
theorem place_split (known : place (rules.map Prod.fst) (a, b) = some index) :
    ∃ front id back, rules = front ++ ((a, b), id) :: back ∧ front.length = index := by
  obtain ⟨inside, here, _⟩ := findIdx?_eq_some_iff_getElem.mp known
  have inside' : index < rules.length := by rwa [length_map] at inside
  have same : rules[index].1 = (a, b) := by
    have shown := of_decide_eq_true here
    rwa [getElem_map] at shown
  refine ⟨rules.take index, rules[index].2, rules.drop (index + 1), ?_, length_take_of_le (Nat.le_of_lt inside')⟩
  rw [← same]
  exact (take_append_drop index rules).symm.trans (by rw [drop_eq_getElem_cons inside'])

/-- No earlier rule has the product of a pair as a part. -/
theorem product_late {front back : List Rule} {id : UInt32} (fits : TableFits (front ++ ((a, b), id) :: back))
    (long : 2 ≤ (a ++ b).length) {rule : Rule} (member : rule ∈ front) : rule.1.1 ≠ a ++ b ∧ rule.1.2 ≠ a ++ b := by
  have absent : ¬(a ++ b = rule.1.1 ∨ a ++ b = rule.1.2) := by
    intro part
    obtain ⟨earlier, middle, rfl⟩ := append_of_mem member
    obtain ⟨other, before, same⟩ := fits.parts earlier rule (middle ++ ((a, b), id) :: back)
      (by rw [append_assoc, cons_append]) _ part long
    have distinct := fits.products
    rw [map_append, nodup_append] at distinct
    exact distinct.2.2 (product other) (mem_map_of_mem (mem_append_left _ before)) (a ++ b)
      mem_cons_self same.symm
  exact ⟨fun same => absent (Or.inl same.symm), fun same => absent (Or.inr same.symm)⟩

/-- The rules before the best pair are used up, and every pair with its product comes later. -/
theorem turn_of_best (fits : TableFits rules) (solid : a ≠ []) (solid' : b ≠ [])
    (known : place (rules.map Prod.fst) (a, b) = some index) (text : List Char) :
    Turn (addMerges BpeMerges.new rules) ((rules.map Prod.fst).take index) a b text := by
  obtain ⟨front, id, back, parts, length⟩ := place_split known
  have seen : (rules.map Prod.fst).take index = front.map Prod.fst := by
    rw [parts, map_append, ← length, ← length_map Prod.fst, take_left]
  have long : 2 ≤ (a ++ b).length := by
    have positive := length_pos_iff.mpr solid
    have positive' := length_pos_iff.mpr solid'
    rw [length_append]
    omega
  have late {rule : Rule} := @product_late a b front back id (parts ▸ fits) long rule
  have priority := @getMergePriority_eq rules fits.pairs
  refine ⟨solid, solid', ⟨index, by rw [priority, known]⟩, ?_, ?_, ?_⟩
  · intro x y lower other unseen different found found'
    rw [priority, known] at found'
    rw [priority] at found
    cases found'
    obtain ⟨inside, here, _⟩ := findIdx?_eq_some_iff_getElem.mp found
    have same : (rules.map Prod.fst)[other] = (x, y) := of_decide_eq_true here
    rcases Nat.lt_trichotomy other index with before | rfl | after
    · exact absurd (mem_take_place.mpr ⟨other, before, found⟩) unseen
    · obtain ⟨_, here', _⟩ := findIdx?_eq_some_iff_getElem.mp known
      exact absurd (same.symm.trans (of_decide_eq_true here')) different
    · exact after
  · intro z _ member
    rcases mem_cons.mp member with same | member
    · exact solid' (append_right_eq_self.mp (Prod.mk.inj same).1)
    · rw [seen] at member
      obtain ⟨rule, before, same⟩ := mem_map.mp member
      exact (late before).1 (congrArg Prod.fst same)
  · intro z _ member
    rcases mem_cons.mp member with same | member
    · exact solid (append_left_eq_self.mp (Prod.mk.inj same).2)
    · rw [seen] at member
      obtain ⟨rule, before, same⟩ := mem_map.mp member
      exact (late before).2 (congrArg Prod.snd same)

/-- Without a pair the tokenizer is done. -/
theorem mergeLoop_done {merges : BpeMerges} (none : ∀ x y, [x, y] <:+: word → merges.getMergePriority x y = none)
    (bound : Nat) : mergeLoop merges bound word = word := by
  cases bound with
  | zero => rfl
  | succ bound =>
      rcases mergeLoop_cases merges bound word with ⟨done, _⟩ | ⟨front, x, y, back, priority, best, _⟩
      · exact done
      · have known := none x y ⟨front, back, by rw [best.split]; simp⟩
        rw [best.found] at known
        cases known

theorem scan_solid (solid : ∀ symbol ∈ word, symbol ≠ []) (some : a ≠ []) :
    ∀ symbol ∈ scan (textJoin (a, b)) word, symbol ≠ [] := by
  intro symbol member
  rcases mem_scan member with old | ⟨x, y, joined⟩
  · exact solid symbol old
  · obtain ⟨same, rfl⟩ := textJoin_some.mp joined
    cases same
    exact fun empty => some (append_eq_nil_iff.mp empty).1

theorem scan_shorter (some : b ≠ []) (inside : [a, b] <:+: word) : (scan (textJoin (a, b)) word).length < word.length := by
  exact (scanned_scan (textJoin_settled some) word).length_lt inside
    (by rw [textJoin_some.mpr ⟨rfl, rfl⟩]; exact Option.some_ne_none _)

theorem bpeLoop_short (short : word.length < 2) (bound : Nat) : bpeLoop ranks bound word = word := by
  match bound, word, short with
  | 0, _, _ => rfl
  | _ + 1, [], _ => rfl
  | _ + 1, [_], _ => rfl

/-- The rounds end where the merges of the tokenizer end. -/
theorem bpeLoop_eq (fits : TableFits rules) (short : rules.length < 2 ^ 32) (bound : Nat)
    (solid : ∀ symbol ∈ word, symbol ≠ []) (enough : word.length ≤ bound) {bound' : Nat}
    (enough' : word.length ≤ bound') :
    bpeLoop (mergeRanks (rules.map Prod.fst)) bound word = mergeLoop (addMerges BpeMerges.new rules) bound' word := by
  induction bound generalizing word bound' with
  | zero =>
      rw [length_eq_zero_iff.mp (Nat.le_zero.mp enough)]
      exact (mergeLoop_done (fun x y inside => absurd inside (no_pair_short (show [].length < 2 by decide))) bound').symm
  | succ bound ih =>
      have best := bestPair_cases fits.pairs (by rwa [length_map]) word
      rw [bpeLoop]
      cases found : bestPair (mergeRanks (rules.map Prod.fst)) word with
      | none =>
          rw [found] at best
          exact (mergeLoop_done (fun x y inside => by rw [getMergePriority_eq fits.pairs, best x y inside]) bound').symm
      | some pair =>
          obtain ⟨a, b⟩ := pair
          rw [found] at best
          obtain ⟨inside, index, known, least⟩ := best
          have solidLeft := solid a (inside.subset mem_cons_self)
          have solidRight := solid b (inside.subset (mem_cons_of_mem _ (mem_singleton_self b)))
          have unseen : ∀ x y, [x, y] <:+: word → (x, y) ∉ (rules.map Prod.fst).take index := by
            intro x y here member
            obtain ⟨other, before, known'⟩ := mem_take_place.mp member
            have later := least x y other here known'
            omega
          obtain ⟨bound'', enough'', same, _⟩ :=
            mergeLoop_turn (turn_of_best fits solidLeft solidRight known _) unseen enough'
          have shorter := scan_shorter solidRight inside
          have next := @ih (scan (textJoin (a, b)) word) (scan_solid solid solidLeft) (by omega) bound'' enough''
          rw [same, ← next]
          dsimp only
          rw [mergeAll_eq solidRight]
          split
          · rename_i few
            exact (bpeLoop_short few bound).symm
          · rfl

theorem mapM_getId {vocab : Vocabulary} (known : ∀ symbol ∈ word, vocab.getId symbol ≠ none) :
    word.mapM vocab.getId = some (word.flatMap fun symbol => symbolToIds symbol vocab) := by
  induction word with
  | nil => rfl
  | cons symbol word ih =>
      obtain ⟨here, later⟩ := forall_mem_cons.mp known
      obtain ⟨id, found⟩ := Option.ne_none_iff_exists'.mp here
      rw [mapM_cons, ih later, found, flatMap_cons, symbolToIds, found]
      rfl

/-- The vocabulary of some tokens. -/
def vocabOf (tokens : List (List Char)) : Vocabulary := tokens.foldl (fun vocab token => vocab.insert token 0) Vocabulary.new

theorem vocabOf_known (tokens : List (List Char)) {token : List Char} (member : token ∈ tokens) :
    (vocabOf tokens).getId token ≠ none := by
  induction tokens using List.reverseRecOn with
  | nil => cases member
  | append_singleton tokens last ih =>
      rw [vocabOf, foldl_concat, Vocabulary.getId_insert]
      split
      · exact Option.some_ne_none _
      · rename_i other
        rcases mem_append.mp member with before | here
        · exact ih before
        · exact absurd (mem_singleton.mp here) other

/-- The encoders agree for every table with fewer rules than ranks. -/
theorem encodersAgree (rules : List Rule) (vocab : Vocabulary) (word : List Char) (fits : TableFits rules)
    (vocabFits : VocabFits vocab rules word) (short : rules.length < 2 ^ 32) : EncodersAgree rules vocab word := by
  have segments : bpe (mergeRanks (rules.map Prod.fst)) word =
      mergeLoop (addMerges BpeMerges.new rules) word.length (word.map fun c => [c]) := by
    have length : (word.map fun c => [c]).length = word.length := length_map _
    rw [bpe]
    split
    · rename_i few
      exact (mergeLoop_done (fun x y inside => absurd inside (no_pair_short few)) _).symm
    · apply bpeLoop_eq fits short _ _ (Nat.le_refl _) (Nat.le_of_eq length)
      intro symbol member
      obtain ⟨c, _, rfl⟩ := mem_map.mp member
      exact cons_ne_nil c []
  refine ⟨segments, ?_⟩
  rw [segments, bpeEncode, length_map]
  apply mapM_getId
  intro symbol member
  rcases mergeLoop_symbols _ _ _ symbol member with single | ⟨x, y, priority, found, rfl⟩
  · obtain ⟨c, inside, rfl⟩ := mem_map.mp single
    exact vocabFits.characters c inside
  · obtain ⟨rule, inside, same⟩ := mem_map.mp (getMergePriority_mem found)
    have shown := vocabFits.products rule inside
    rwa [product, same] at shown

theorem encodersAgree_abab : EncodersAgree [((['a'], ['b']), 0), ((['a', 'b'], ['a', 'b']), 1)]
    (vocabOf [['a'], ['b'], ['a', 'b'], ['a', 'b', 'a', 'b']]) ['a', 'b', 'a', 'b'] := by
  apply encodersAgree
  · refine ⟨by decide, by decide, fun front rule back parts part which long => ?_⟩
    match front, parts with
    | [], parts =>
        obtain ⟨rfl, _⟩ := List.cons.inj parts
        rcases which with rfl | rfl <;> exact absurd long (by decide)
    | [_], parts =>
        cases parts
        refine ⟨_, mem_singleton_self _, ?_⟩
        rcases which with rfl | rfl <;> rfl
    | first :: second :: front, parts =>
        have length := congrArg List.length parts
        simp at length
  · constructor
    · exact fun c member => vocabOf_known _ (by revert c; simp)
    · exact fun rule member => vocabOf_known _ (by revert rule; simp [product])
  · decide

/-- The two characters of a pair, of which there are enough for every number of 32 bits. -/
def widePair (index : Nat) : List Char × List Char :=
  ([Char.ofNat (0x10000 + index / 65536)], [Char.ofNat (0x10000 + index % 65536)])

/-- A table with a rule for every number of 32 bits. The last rule merges two letters. -/
def wideRules (count : Nat) : List Rule := (List.range count).map (fun index => (widePair index, 0)) ++ [((['a'], ['b']), 0)]

theorem char_toNat {code : Nat} (valid : code < 65536) : (Char.ofNat (0x10000 + code)).toNat = 0x10000 + code := by
  have allowed : (0x10000 + code).isValidChar := Or.inr ⟨by omega, by omega⟩
  rw [Char.ofNat, dif_pos allowed]
  rfl

theorem widePair_injective {index' : Nat} (small : index < 2 ^ 32) (small' : index' < 2 ^ 32)
    (same : (widePair index).1 ++ (widePair index).2 = (widePair index').1 ++ (widePair index').2) :
    index = index' := by
  obtain ⟨high, low⟩ := List.cons.inj same
  have high := congrArg Char.toNat high
  have low := congrArg Char.toNat (List.cons.inj low).1
  rw [char_toNat (by omega), char_toNat (by omega)] at high low
  omega

theorem mem_wideRules {count : Nat} {rule : Rule} (member : rule ∈ wideRules count) :
    rule.1.1.length = 1 ∧ rule.1.2.length = 1 := by
  rcases mem_append.mp member with wide | last
  · obtain ⟨index, _, rfl⟩ := mem_map.mp wide
    exact ⟨rfl, rfl⟩
  · rw [mem_singleton.mp last]
    exact ⟨rfl, rfl⟩

theorem wideRules_fit {count : Nat} (few : count ≤ 2 ^ 32) : TableFits (wideRules count) := by
  have products : ((wideRules count).map product).Nodup := by
    rw [wideRules, map_append, map_map, nodup_append]
    refine ⟨List.Nodup.map_on ?_ nodup_range, nodup_singleton _, ?_⟩
    · intro index member index' member' same
      have below := mem_range.mp member
      have below' := mem_range.mp member'
      exact widePair_injective (by omega) (by omega) same
    · rintro _ member _ last rfl
      obtain ⟨index, inside, same⟩ := mem_map.mp member
      have below := mem_range.mp inside
      rw [mem_singleton.mp last] at same
      have high := congrArg Char.toNat (List.cons.inj same).1
      rw [char_toNat (by omega)] at high
      have letter : 'a'.toNat = 97 := rfl
      omega
  refine ⟨?_, products, ?_⟩
  · have same : (wideRules count).map product = ((wideRules count).map Prod.fst).map fun pair => pair.1 ++ pair.2 := by
      rw [map_map]
      rfl
    rw [same] at products
    exact products.of_map
  · intro front rule back parts part which long
    have lengths := @mem_wideRules count rule (parts ▸ mem_append_right _ mem_cons_self)
    rcases which with rfl | rfl <;> omega

/-- The place of the last rule. -/
theorem place_wide (few : count ≤ 2 ^ 32) : place ((wideRules count).map Prod.fst) (['a'], ['b']) = some count := by
  have nodup := (wideRules_fit few).pairs
  rw [wideRules, map_append, map_singleton] at nodup ⊢
  rw [place_concat, place_none.mpr, if_pos rfl, Option.none_or, length_map, length_map, length_range]
  rw [nodup_append] at nodup
  exact fun member => nodup.2.2 _ member _ (mem_singleton_self _) rfl

/-- The rank of the last of these rules is the number at which the search starts. -/
theorem bpe_wide (full : count = 4294967295) :
    bpe (mergeRanks ((wideRules count).map Prod.fst)) ['a', 'b'] = [['a'], ['b']] := by
  have rank := lookup_mergeRanks (@wideRules_fit count (by omega)).pairs ['a'] ['b']
  rw [place_wide (by omega), Option.map_some, full] at rank
  have none : bestPair (mergeRanks ((wideRules count).map Prod.fst)) [['a'], ['b']] = none := by
    rw [bestPair, tail_cons, zip_cons_cons, zip_nil_right, foldl_cons, foldl_nil, bestStep, full, rank]
    rfl
  change bpeLoop _ 2 [['a'], ['b']] = _
  rw [bpeLoop, none]

/-- The tokenizer merges the pair of the last rule. -/
theorem mergeLoop_wide (few : count ≤ 2 ^ 32) :
    mergeLoop (addMerges BpeMerges.new (wideRules count)) 2 [['a'], ['b']] = [['a', 'b']] := by
  rcases mergeLoop_cases (addMerges BpeMerges.new (wideRules count)) 1 [['a'], ['b']] with
    ⟨_, none⟩ | ⟨front, x, y, back, priority, best, next⟩
  · have known := none ['a'] ['b'] (infix_refl _)
    rw [getMergePriority_eq (wideRules_fit few).pairs, place_wide few] at known
    cases known
  · have split := best.split
    have length := congrArg List.length split
    simp only [length_append, length_cons, length_nil] at length
    obtain ⟨rfl, rfl⟩ : front = [] ∧ back = [] :=
      ⟨length_eq_zero_iff.mp (by omega), length_eq_zero_iff.mp (by omega)⟩
    obtain ⟨rfl, rfl⟩ : ['a'] = x ∧ ['b'] = y := by
      obtain ⟨left, right⟩ := List.cons.inj split
      exact ⟨left, (List.cons.inj right).1⟩
    rw [next]
    rfl

def wideVocab (count : Nat) : Vocabulary := vocabOf ([['a'], ['b']] ++ (wideRules count).map product)

theorem wideVocab_fits (count : Nat) : VocabFits (wideVocab count) (wideRules count) ['a', 'b'] := by
  constructor
  · intro c member
    apply vocabOf_known
    rcases mem_pair.mp member with rfl | rfl
    · exact mem_append_left _ mem_cons_self
    · exact mem_append_left _ (mem_cons_of_mem _ (mem_singleton_self _))
  · intro rule member
    exact vocabOf_known _ (mem_append_right _ (mem_map_of_mem member))

/-- With a rule for every rank the last pair is not merged by the encoder of prompts. -/
theorem encodersAgree_full : ∃ count, count = 4294967295 ∧ TableFits (wideRules count) ∧
    VocabFits (wideVocab count) (wideRules count) ['a', 'b'] ∧
      ¬EncodersAgree (wideRules count) (wideVocab count) ['a', 'b'] := by
  obtain ⟨count, full⟩ : ∃ count, count = 4294967295 := ⟨_, rfl⟩
  refine ⟨count, full, wideRules_fit (by omega), wideVocab_fits count, fun agree => ?_⟩
  have segments := agree.segments
  rw [bpe_wide full] at segments
  change _ = mergeLoop _ 2 [['a'], ['b']] at segments
  rw [mergeLoop_wide (by omega)] at segments
  exact absurd segments (by decide)

end Pictor.Qwen3Tokenizer
