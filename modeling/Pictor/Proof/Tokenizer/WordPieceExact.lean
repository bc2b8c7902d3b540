import Pictor.Construction.Tokenizer.Unigram

namespace Pictor.WordPieceVocab
open List

/-- The greedy segmentation of a word: each piece is the longest token at its position, and the mark changes behind the
first piece. -/
inductive Greedy (tokens : List (List Char)) : List Char → List Char → List (List Char) → Prop
  | done (mark : List Char) : Greedy tokens mark [] []
  | piece {mark front rest : List Char} {pieces : List (List Char)} : front ≠ [] → mark ++ front ∈ tokens →
      (∀ longer, longer <+: front ++ rest → front.length < longer.length → mark ++ longer ∉ tokens) →
      Greedy tokens wordpieceContinuationPrefix rest pieces →
      Greedy tokens mark (front ++ rest) ((mark ++ front) :: pieces)

/-- The id that a token gets. -/
def idOf (tokens : List (List Char)) (token : List Char) : UInt32 := UInt32.ofNat (tokens.idxOf token)

variable {tokens : List (List Char)} {unkId : UInt32} {vocab : WordPieceVocab}

/-- What the construction of a vocabulary leaves. -/
structure Indexed (tokens : List (List Char)) (unkId : UInt32) (vocab : WordPieceVocab) : Prop where
  unk : vocab.unkId = unkId
  listed : vocab.idToToken = tokens
  distinct : tokens.Nodup
  lookup : ∀ token, vocab.tokenToId.lookup token = if token ∈ tokens then some (idOf tokens token) else none

theorem insertTokens_ok {first : Nat} {map map' : AList fun _ : List Char => UInt32}
    (inserted : insertTokens first tokens map = .ok map') :
    tokens.Nodup ∧ ∀ token, (token ∈ tokens → map.lookup token = none) ∧ map'.lookup token =
      if token ∈ tokens then some (UInt32.ofNat (first + tokens.idxOf token)) else map.lookup token := by
  induction tokens generalizing first map with
  | nil =>
      cases inserted
      exact ⟨nodup_nil, fun token => ⟨nofun, rfl⟩⟩
  | cons here tokens ih =>
      rw [insertTokens] at inserted
      split at inserted
      · cases inserted
      · rename_i fresh
        obtain ⟨distinct, later⟩ := ih inserted
        have absent : here ∉ tokens := by
          intro member
          have none := (later here).1 member
          rw [AList.lookup_insert] at none
          cases none
        refine ⟨nodup_cons.mpr ⟨absent, distinct⟩, fun token => ?_⟩
        by_cases same : token = here
        · subst same
          refine ⟨fun _ => AList.lookup_eq_none.mpr fresh, ?_⟩
          rw [(later token).2, if_neg absent, AList.lookup_insert, if_pos mem_cons_self, idxOf_cons_self,
            Nat.add_zero]
        · have other := later token
          rw [AList.lookup_insert_ne same] at other
          have member : token ∈ here :: tokens ↔ token ∈ tokens := by
            rw [mem_cons, or_iff_right same]
          refine ⟨fun inside => other.1 (member.mp inside), ?_⟩
          rw [other.2, idxOf_cons_ne _ (Ne.symm same)]
          simp only [member, Nat.succ_eq_add_one, Nat.add_assoc, Nat.add_comm 1]

theorem new_indexed (built : new tokens unkId = .ok vocab) (max : Nat) :
    Indexed tokens unkId (vocab.withMaxInputChars max) := by
  rw [new] at built
  split at built
  · cases built
  · split at built
    · cases built
    · cases inserted : insertTokens 0 tokens ∅ with
      | error error =>
          rw [inserted] at built
          cases built
      | ok map =>
          rw [inserted] at built
          cases built
          obtain ⟨distinct, found⟩ := insertTokens_ok inserted
          refine ⟨rfl, rfl, distinct, fun token => ?_⟩
          change map.lookup token = _
          rw [(found token).2, Nat.zero_add, AList.lookup_empty]
          rfl

variable {pieces : List (List Char)}

/-- The greedy segmentation is unique. -/
theorem Greedy.unique {mark word : List Char} {pieces' : List (List Char)} (greedy : Greedy tokens mark word pieces)
    (greedy' : Greedy tokens mark word pieces') : pieces = pieces' := by
  induction greedy generalizing pieces' with
  | done mark =>
      generalize empty : ([] : List Char) = word at greedy'
      cases greedy' with
      | done => rfl
      | piece some _ _ _ =>
          have none := append_eq_nil_iff.mp empty.symm
          exact absurd none.1 some
  | @piece mark front rest pieces some known longest _ ih =>
      generalize same : front ++ rest = word at greedy'
      cases greedy' with
      | done =>
          have none := append_eq_nil_iff.mp same
          exact absurd none.1 some
      | @piece _ front' rest' pieces' some' known' longest' later' =>
          have lengths : front.length = front'.length := by
            rcases Nat.lt_trichotomy front.length front'.length with less | equal | more
            · exact absurd known' (longest front' (same ▸ List.prefix_append _ _) less)
            · exact equal
            · exact absurd known (longest' front (same ▸ List.prefix_append _ _) more)
          obtain ⟨rfl, rfl⟩ := append_inj same lengths
          rw [ih later']

/-- The mark in front of a position. -/
def markAt (startChar : Nat) : List Char := if startChar = 0 then [] else wordpieceContinuationPrefix

theorem candidate_drop (word : List Char) (startChar endChar : Nat) :
    candidate word startChar endChar = markAt startChar ++ (word.drop startChar).take (endChar - startChar) := rfl

theorem greedy_atEnd (word : List Char) {startChar : Nat} (atEnd : word.length ≤ startChar) (out : List UInt32) :
    ∃ pieces, Greedy tokens (markAt startChar) (word.drop startChar) pieces ∧
      out = out ++ pieces.map (idOf tokens) := by
  refine ⟨[], ?_, (append_nil out).symm⟩
  rw [drop_eq_nil_of_le atEnd]
  exact .done _

section Encode

variable (indexed : Indexed tokens unkId vocab) (word : List Char)
include indexed

variable {startChar : Nat} {id : UInt32}

theorem lookup_candidate {endChar : Nat} (found : vocab.tokenToId.lookup (candidate word startChar endChar) = some id) :
    candidate word startChar endChar ∈ tokens ∧ id = idOf tokens (candidate word startChar endChar) := by
  rw [indexed.lookup] at found
  split at found
  · rename_i member
    cases found
    exact ⟨member, rfl⟩
  · cases found

/-- The first end that matches from the last one down gives the longest token. -/
theorem longestMatch_some {bound endChar : Nat} (nonempty : startChar < bound)
    (found : longestMatch vocab word startChar bound = some (id, endChar)) :
    (startChar < endChar ∧ endChar ≤ bound) ∧ candidate word startChar endChar ∈ tokens ∧
      id = idOf tokens (candidate word startChar endChar) ∧
      ∀ other, endChar < other → other ≤ bound → candidate word startChar other ∉ tokens := by
  induction bound with
  | zero => exact absurd nonempty (Nat.not_lt_zero _)
  | succ bound ih =>
      rw [longestMatch] at found
      split at found
      · rename_i known
        cases found
        obtain ⟨member, named⟩ := lookup_candidate indexed word known
        exact ⟨⟨nonempty, Nat.le_refl _⟩, member, named, fun other more less => absurd more (Nat.not_lt.mpr less)⟩
      · rename_i unknown
        split at found
        · cases found
        · rename_i more
          obtain ⟨⟨front, back⟩, member, named, longest⟩ := ih (by omega) found
          refine ⟨⟨front, Nat.le_succ_of_le back⟩, member, named, fun other later inside => ?_⟩
          rcases Nat.lt_or_ge bound other with last | before
          · obtain rfl : other = bound + 1 := by omega
            rw [indexed.lookup] at unknown
            intro member
            rw [if_pos member] at unknown
            cases unknown
          · exact longest other later before

/-- The loop chooses the pieces of the greedy segmentation. -/
theorem piecesFrom_some {count : Nat} {out out' : List UInt32} (enough : word.length ≤ count + startChar)
    (found : piecesFrom vocab word count startChar out = some out') :
    ∃ pieces, Greedy tokens (markAt startChar) (word.drop startChar) pieces ∧
      out' = out ++ pieces.map (idOf tokens) := by
  induction count generalizing startChar out with
  | zero =>
      cases found
      exact greedy_atEnd word (by omega) _
  | succ count ih =>
      rw [piecesFrom] at found
      split at found
      · rename_i inside
        split at found
        · rename_i id endChar matched
          obtain ⟨⟨front, back⟩, member, named, longest⟩ := longestMatch_some indexed word inside matched
          have behind : markAt endChar = wordpieceContinuationPrefix := if_neg (by omega)
          obtain ⟨pieces, greedy, result⟩ := ih (by omega) found
          rw [behind] at greedy
          rw [candidate_drop] at member named
          have parts : word.drop startChar = (word.drop startChar).take (endChar - startChar) ++ word.drop endChar := by
            have split := (take_append_drop (endChar - startChar) (word.drop startChar)).symm
            rwa [drop_drop, Nat.add_sub_cancel' (Nat.le_of_lt front)] at split
          have here : Greedy tokens (markAt startChar)
              ((word.drop startChar).take (endChar - startChar) ++ word.drop endChar)
              ((markAt startChar ++ (word.drop startChar).take (endChar - startChar)) :: pieces) := by
            refine .piece ?_ member (fun longer inside' more => ?_) greedy
            · intro none
              have length := congrArg List.length none
              rw [length_take, length_drop, length_nil] at length
              omega
            · rw [← parts] at inside'
              have short := inside'.length_le
              rw [length_take, length_drop] at more
              rw [length_drop] at short
              have known := longest (startChar + longer.length) (by omega) (by omega)
              rwa [candidate_drop, Nat.add_sub_cancel_left, ← prefix_iff_eq_take.mp inside'] at known
          rw [← parts] at here
          refine ⟨_, here, ?_⟩
          rw [result, named, map_cons, append_assoc, singleton_append]
        · cases found
      · rename_i outside
        cases found
        exact greedy_atEnd word (Nat.le_of_not_lt outside) _

/-- A word adds its pieces or the unknown token. -/
theorem tokenizeWordInto_cases (out : List UInt32) : (∃ pieces, Greedy tokens [] word pieces ∧
      vocab.tokenizeWordInto out word = out ++ pieces.map (idOf tokens)) ∨
    vocab.tokenizeWordInto out word = out ++ [vocab.unkId] := by
  rw [tokenizeWordInto]
  split
  · exact Or.inr rfl
  · cases found : piecesFrom vocab word word.length 0 out with
    | none => exact Or.inr rfl
    | some out' =>
        obtain ⟨pieces, greedy, same⟩ := piecesFrom_some indexed word (Nat.le_refl _) found
        rw [drop_zero] at greedy
        exact Or.inl ⟨pieces, greedy, same⟩

/-- An encoding without the unknown token consists of the greedy segmentations of the words. -/
theorem encodeWords_known (words : List (List Char)) (out : List UInt32)
    (known : vocab.unkId ∉ words.foldl vocab.tokenizeWordInto out) :
    ∃ segments, List.Forall₂ (Greedy tokens []) words segments ∧
      words.foldl vocab.tokenizeWordInto out = out ++ segments.flatten.map (idOf tokens) := by
  have grows (words : List (List Char)) : ∀ out : List UInt32, out ⊆ words.foldl vocab.tokenizeWordInto out := by
    induction words with
    | nil => exact fun out => List.Subset.refl _
    | cons word words ih =>
        intro out
        have step : out ⊆ vocab.tokenizeWordInto out word := by
          rcases tokenizeWordInto_cases indexed word out with ⟨_, _, same⟩ | same <;> rw [same] <;>
            exact subset_append_left _ _
        exact List.Subset.trans step (ih _)
  induction words generalizing out with
  | nil => exact ⟨[], .nil, (append_nil out).symm⟩
  | cons word words ih =>
      rw [foldl_cons] at known ⊢
      obtain ⟨segments, each, same⟩ := ih _ known
      rcases tokenizeWordInto_cases indexed word out with ⟨pieces, greedy, first⟩ | bad
      · refine ⟨pieces :: segments, .cons greedy each, ?_⟩
        rw [same, first, flatten_cons, map_append, append_assoc]
      · refine absurd (grows words _ ?_) known
        rw [bad]
        exact mem_append_right _ mem_cons_self

end Encode

/-- A new word stands behind a space. -/
def joinWord (result word : List Char) : List Char := (if result = [] then result else result ++ [' ']) ++ word

theorem pushToken_continuation (result rest : List Char) :
    pushToken result (wordpieceContinuationPrefix ++ rest) = result ++ rest := rfl

theorem pushToken_start {result token : List Char} (unmarked : ¬ wordpieceContinuationPrefix <+: token) :
    pushToken result token = joinWord result token := by
  rw [pushToken]
  split
  · rename_i cont marked
    exact absurd ⟨cont, (isPrefixOf?_eq_some_iff_append_eq.mp marked)⟩ unmarked
  · rfl

/-- Continuations add the rest of their word. -/
theorem foldl_pushToken_continuation {word : List Char} (greedy : Greedy tokens wordpieceContinuationPrefix word pieces)
    (result : List Char) : pieces.foldl pushToken result = result ++ word := by
  generalize same : wordpieceContinuationPrefix = mark at greedy
  induction greedy generalizing result with
  | done => exact (append_nil result).symm
  | piece _ _ _ _ ih =>
      subst same
      rw [foldl_cons, pushToken_continuation, ih _ rfl, append_assoc]

/-- The first piece of a word is a token, and a token with the mark loses the mark and the space. -/
theorem foldl_pushToken_word {word : List Char} (greedy : Greedy tokens [] word pieces) (some : word ≠ [])
    (result : List Char) : ((∀ token ∈ tokens, token <+: word → ¬ wordpieceContinuationPrefix <+: token) →
        pieces.foldl pushToken result = joinWord result word) ∧
      ((∃ token ∈ tokens, token <+: word ∧ wordpieceContinuationPrefix <+: token) →
        (pieces.foldl pushToken result).length + 2 = result.length + word.length) := by
  generalize noMark : ([] : List Char) = mark at greedy
  cases greedy with
  | done => exact absurd rfl some
  | @piece _ front rest pieces nonempty known longest later =>
      subst noMark
      rw [nil_append] at known ⊢
      rw [foldl_cons, foldl_pushToken_continuation later]
      constructor
      · intro unmarked
        rw [pushToken_start (unmarked front known (List.prefix_append _ _)), joinWord, joinWord, append_assoc]
      · rintro ⟨token, member, inside, marked⟩
        have short : token.length ≤ front.length := by
          by_contra more
          exact longest token inside (Nat.lt_of_not_le more) member
        obtain ⟨cont, rfl⟩ := marked.trans (prefix_of_prefix_length_le inside (List.prefix_append _ _) short)
        rw [pushToken_continuation, append_assoc, length_append, length_append, length_append,
          length_append, wordpieceContinuationPrefix]
        simp only [length_cons, length_nil]
        omega

theorem length_joinWord (result word : List Char) :
    (joinWord result word).length = result.length + (if result = [] then 0 else 1) + word.length := by
  rw [joinWord, length_append]
  split <;> simp

/-- No token with the mark is a start of the word. -/
def Unmarked (tokens : List (List Char)) (word : List Char) : Prop :=
  ∀ token ∈ tokens, token <+: word → ¬ wordpieceContinuationPrefix <+: token

theorem marked_of_not (marked : ¬ Unmarked tokens word) :
    ∃ token ∈ tokens, token <+: word ∧ wordpieceContinuationPrefix <+: token := by
  simpa only [Unmarked, not_forall, not_not, exists_prop] using marked

section Decode

variable {words : List (List Char)} {segments : List (List (List Char))}

/-- Words without marked starts are joined by spaces. -/
theorem decode_unmarked (each : List.Forall₂ (Greedy tokens []) words segments) (some : ∀ word ∈ words, word ≠ [])
    (unmarked : ∀ word ∈ words, Unmarked tokens word) (result : List Char) :
    segments.flatten.foldl pushToken result = words.foldl joinWord result := by
  induction each generalizing result with
  | nil => rfl
  | @cons word pieces words segments greedy _ ih =>
      rw [forall_mem_cons] at some unmarked
      rw [flatten_cons, foldl_append, foldl_cons,
        (foldl_pushToken_word greedy some.1 result).1 unmarked.1]
      exact ih some.2 unmarked.2 _

/-- A marked start makes the decoded text shorter. -/
theorem decode_shorter (each : List.Forall₂ (Greedy tokens []) words segments) (some : ∀ word ∈ words, word ≠ [])
    {result other : List Char} (short : result.length ≤ other.length)
    (strict : result.length < other.length ∨ ∃ word ∈ words, ¬ Unmarked tokens word) :
    (segments.flatten.foldl pushToken result).length < (words.foldl joinWord other).length := by
  induction each generalizing result other with
  | nil =>
      rcases strict with less | ⟨word, none, _⟩
      · exact less
      · cases none
  | @cons word pieces words segments greedy _ ih =>
      rw [forall_mem_cons] at some
      have step := foldl_pushToken_word greedy some.1 result
      have longer := length_joinWord other word
      rw [flatten_cons, foldl_append, foldl_cons]
      by_cases unmarked : Unmarked tokens word
      · rw [step.1 unmarked]
        have shorter := length_joinWord result word
        have spaces : (if result = [] then 0 else 1) ≤ if other = [] then 0 else 1 := by
          by_cases empty : other = []
          · subst empty
            rw [if_pos (eq_nil_of_length_eq_zero (Nat.le_zero.mp short))]
            exact Nat.zero_le _
          · rw [if_neg empty]
            split <;> decide
        refine ih some.2 (by omega) ?_
        rcases strict with less | ⟨bad, member, marked⟩
        · exact Or.inl (by omega)
        · rcases mem_cons.mp member with rfl | later
          · exact absurd unmarked marked
          · exact Or.inr ⟨bad, later, marked⟩
      · have shorter := step.2 (marked_of_not unmarked)
        exact ih some.2 (by omega) (Or.inl (by omega))

theorem intercalate_joinWord (some : ∀ word ∈ words, word ≠ []) :
    [' '].intercalate words = words.foldl joinWord [] := by
  have behind (words : List (List Char)) : ∀ result : List Char, result ≠ [] → (∀ word ∈ words, word ≠ []) →
      words.foldl joinWord result = [' '].intercalate (result :: words) := by
    induction words with
    | nil =>
        intro result _ _
        rw [intercalate_singleton, foldl_nil]
    | cons word words ih =>
        intro result nonempty some
        rw [forall_mem_cons] at some
        have joined : joinWord result word = result ++ ' ' :: word := by
          rw [joinWord, if_neg nonempty, append_assoc]
          rfl
        rw [foldl_cons, joined, ih _ (append_ne_nil_of_left_ne_nil nonempty _) some.2]
        cases words with
        | nil => rw [intercalate_cons_cons, intercalate_singleton, intercalate_singleton,
            append_assoc, singleton_append]
        | cons next words =>
            rw [intercalate_cons_cons, intercalate_cons_cons, intercalate_cons_cons]
            simp only [append_assoc, cons_append, nil_append]
  cases words with
  | nil => rfl
  | cons word words =>
      rw [forall_mem_cons] at some
      rw [foldl_cons]
      exact (behind words word some.1 some.2).symm

variable {pieces : List (List Char)} {piece : List Char}

theorem decode_map (named : ∀ piece ∈ pieces, vocab.decodeToken (idOf tokens piece) = some piece) :
    vocab.decode (pieces.map (idOf tokens)) = pieces.foldl pushToken [] := by
  rw [decode, foldl_map]
  apply foldl_ext
  intro result piece member
  rw [named piece member]

/-- A token is decoded from its id when its index has 32 bits. -/
theorem decodeToken_idOf (indexed : Indexed tokens unkId vocab) (member : piece ∈ tokens) :
    vocab.decodeToken (idOf tokens piece) = some piece ↔ tokens.idxOf piece < 2 ^ 32 := by
  have inside := idxOf_lt_length_of_mem member
  rw [decodeToken, indexed.listed, idOf, UInt32.toNat_ofNat']
  constructor
  · intro found
    obtain ⟨bound, same⟩ := List.getElem?_eq_some_iff.mp found
    have index := indexed.distinct.idxOf_getElem _ bound
    rw [same] at index
    rw [index]
    exact Nat.mod_lt _ (by decide)
  · intro small
    rw [Nat.mod_eq_of_lt small, getElem?_eq_getElem inside, getElem_idxOf]

theorem Greedy.mem {mark word : List Char} (greedy : Greedy tokens mark word pieces) (member : piece ∈ pieces) :
    piece ∈ tokens := by
  induction greedy with
  | done => cases member
  | piece _ known _ _ ih =>
      rcases mem_cons.mp member with rfl | later
      · exact known
      · exact ih later

end Decode

theorem splitWhitespace_ne_nil {text word : List Char} (member : word ∈ splitWhitespace text) : word ≠ [] :=
  of_decide_eq_true (mem_filter.mp member).2

section Segments

variable {words : List (List Char)} {segments segments' : List (List (List Char))}

theorem segments_unique (each : List.Forall₂ (Greedy tokens []) words segments)
    (each' : List.Forall₂ (Greedy tokens []) words segments') : segments = segments' := by
  induction each generalizing segments' with
  | nil =>
      cases each'
      rfl
  | cons greedy _ ih =>
      cases each' with
      | cons greedy' later => rw [greedy.unique greedy', ih later]

theorem segments_forall {property : List Char → Prop} (each : List.Forall₂ (Greedy tokens []) words segments) :
    (∀ piece ∈ segments.flatten, property piece) ↔
      ∀ word ∈ words, ∀ pieces, Greedy tokens [] word pieces → ∀ piece ∈ pieces, property piece := by
  induction each with
  | nil => exact iff_of_true nofun nofun
  | @cons word pieces words segments greedy _ ih =>
      rw [flatten_cons, forall_mem_append, forall_mem_cons, ih]
      refine and_congr_left' ⟨fun known pieces' greedy' => ?_, fun known => known pieces greedy⟩
      rw [← greedy.unique greedy']
      exact known

end Segments

/-- The decoded encoding is the words joined by spaces, and its tokens are the greedy segmentations of the words. -/
def RoundTrips (tokens : List (List Char)) (vocab : WordPieceVocab) (text : List Char) : Prop :=
  vocab.decode (vocab.encode text) = [' '].intercalate (splitWhitespace text) ∧
    ∃ segments, List.Forall₂ (Greedy tokens []) (splitWhitespace text) segments ∧
      (vocab.encode text).map vocab.decodeToken = segments.flatten.map some

/-- No word starts with a marked token, and the pieces of the words have indices of 32 bits. -/
def PlainStarts (tokens : List (List Char)) (text : List Char) : Prop :=
  ∀ word ∈ splitWhitespace text, Unmarked tokens word ∧
    ∀ pieces, Greedy tokens [] word pieces → ∀ piece ∈ pieces, tokens.idxOf piece < 2 ^ 32

/-- A text whose encoding has no unknown token makes the round trip exactly when no word starts with a marked token and
no piece has an id that wraps. -/
theorem decode_encode_iff {base : WordPieceVocab} (built : new tokens unkId = .ok base) (max : Nat) (text : List Char)
    (known : unkId ∉ (base.withMaxInputChars max).encode text) :
    RoundTrips tokens (base.withMaxInputChars max) text ↔ PlainStarts tokens text := by
  have indexed := new_indexed built max
  generalize base.withMaxInputChars max = vocab at indexed known ⊢
  rw [← indexed.unk] at known
  obtain ⟨segments, each, encoded⟩ := encodeWords_known indexed _ [] known
  rw [nil_append] at encoded
  change vocab.encode text = _ at encoded
  have some (word : List Char) (member : word ∈ splitWhitespace text) := splitWhitespace_ne_nil member
  have member : ∀ piece ∈ segments.flatten, piece ∈ tokens :=
    (segments_forall each).mpr fun word _ pieces greedy piece => greedy.mem
  have named : (vocab.encode text).map vocab.decodeToken = segments.flatten.map Option.some ↔
      ∀ piece ∈ segments.flatten, tokens.idxOf piece < 2 ^ 32 := by
    rw [encoded, map_map, map_inj_left]
    exact forall₂_congr fun piece inside => decodeToken_idOf indexed (member piece inside)
  have decoded (small : ∀ piece ∈ segments.flatten, tokens.idxOf piece < 2 ^ 32) :
      vocab.decode (vocab.encode text) = segments.flatten.foldl pushToken [] := by
    rw [encoded, decode_map fun piece inside => (decodeToken_idOf indexed (member piece inside)).mpr (small piece inside)]
  rw [RoundTrips, intercalate_joinWord some]
  constructor
  · rintro ⟨same, segments', each', tokens'⟩
    obtain rfl := segments_unique each each'
    have small := named.mp tokens'
    rw [decoded small] at same
    intro word inside
    refine ⟨?_, (segments_forall each).mp small word inside⟩
    by_contra marked
    have shorter := @decode_shorter _ _ _ each some [] [] (Nat.le_refl _) (Or.inr ⟨word, inside, marked⟩)
    rw [same] at shorter
    exact Nat.lt_irrefl _ shorter
  · intro plain
    have small := (segments_forall each).mpr fun word inside => (plain word inside).2
    refine ⟨?_, segments, each, named.mpr small⟩
    rw [decoded small]
    exact decode_unmarked each some (fun word inside => (plain word inside).1) []

/-- The tokens of the examples: the unknown token, a start and a continuation. -/
def playTokens : List (List Char) := ["[UNK]".toList, "play".toList, "##ing".toList]

def playVocab : WordPieceVocab :=
  ⟨(((∅ : AList fun _ : List Char => UInt32).insert "[UNK]".toList 0).insert "play".toList 1).insert "##ing".toList 2,
    playTokens, 0, 100⟩

theorem playVocab_new : new playTokens 0 = .ok playVocab := by rfl

/-- The text playing play makes the round trip. -/
theorem decode_encode_playing : PlainStarts playTokens "playing play".toList ∧
      RoundTrips playTokens (playVocab.withMaxInputChars 100) "playing play".toList := by
  have known : 0 ∉ (playVocab.withMaxInputChars 100).encode "playing play".toList := by decide
  have unmarked : ∀ word ∈ splitWhitespace "playing play".toList, ∀ token ∈ playTokens, token <+: word →
      ¬ wordpieceContinuationPrefix <+: token := by decide
  have plain : PlainStarts playTokens "playing play".toList := by
    refine fun word member => ⟨unmarked word member, fun pieces greedy piece inside => ?_⟩
    exact Nat.lt_trans (idxOf_lt_length_of_mem (greedy.mem inside)) (by decide)
  exact ⟨plain, (decode_encode_iff playVocab_new 100 _ known).mpr plain⟩

/-- A word that starts with a continuation token loses its mark and its space. -/
theorem markedStart_lost : ¬ ∀ (tokens : List (List Char)) (unkId : UInt32) (base : WordPieceVocab),
    new tokens unkId = .ok base → ∀ (max : Nat) (text : List Char),
      unkId ∉ (base.withMaxInputChars max).encode text → RoundTrips tokens (base.withMaxInputChars max) text := by
  intro always
  have joined := (always playTokens 0 playVocab playVocab_new 100 "play ##ing".toList (by decide)).1
  have lost : (playVocab.withMaxInputChars 100).decode
      ((playVocab.withMaxInputChars 100).encode "play ##ing".toList) = "playing".toList := by decide
  rw [lost] at joined
  exact absurd joined (by decide)

end Pictor.WordPieceVocab
