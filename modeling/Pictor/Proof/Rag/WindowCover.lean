import Pictor.Construction.Rag.Chunker

namespace Pictor.Chunker
open Utf8 TextSlice List

variable {text : List Char} {docId length step total start : Nat} {moves : 0 < step} {config : ChunkConfig}

theorem charIndices_getElem? (offset n : Nat) (text : List Char) (inside : n < text.length) :
    ((charIndices offset text)[n]?).map Prod.fst = some (offset + size (text.take n)) := by
  induction text generalizing offset n with
  | nil => cases inside
  | cons c text ih =>
      cases n with
      | zero => rfl
      | succ n =>
          rw [charIndices, getElem?_cons_succ, ih _ n (Nat.lt_of_succ_lt_succ inside), take_succ_cons,
            size_cons, Nat.add_assoc]

theorem length_charIndices (offset : Nat) (text : List Char) : (charIndices offset text).length = text.length := by
  induction text generalizing offset with
  | nil => rfl
  | cons c text ih => rw [charIndices, length_cons, length_cons, ih]

/-- The byte offset of a character is the size of the text in front of it. -/
theorem byteOffsetOfChar_eq (text : List Char) (n : Nat) : byteOffsetOfChar text n = size (text.take n) := by
  rw [byteOffsetOfChar]
  by_cases inside : n < text.length
  · rw [charIndices_getElem? 0 n text inside, Option.getD_some, Nat.zero_add]
  · rw [getElem?_eq_none (by rw [length_charIndices]; omega), take_of_length_le (by omega)]
    rfl

theorem windows_end (ended : ¬ start < total) : windows length step total moves start = [] := by
  rw [windows, if_neg ended]

theorem windows_last (inside : start < total) (reached : total ≤ start + length) :
    windows length step total moves start = [(start, total)] := by
  rw [windows, if_pos inside, Nat.min_eq_right reached]
  simp only [if_true]

theorem windows_next (short : start + length < total) : windows length step total moves start =
      (start, start + length) :: windows length step total moves (start + step) := by
  rw [windows, if_pos (by omega), Nat.min_eq_left (by omega)]
  simp only [if_neg (Nat.ne_of_lt short)]

/-- Each window lies in the text. -/
theorem windows_within {start : Nat} {window : Nat × Nat} (member : window ∈ windows length step total moves start) :
    start ≤ window.1 ∧ window.1 < total ∧ window.2 = min (window.1 + length) total := by
  by_cases inside : start < total
  case neg =>
    rw [windows_end inside] at member
    cases member
  by_cases reached : total ≤ start + length
  · rw [windows_last inside reached, mem_singleton] at member
    subst member
    exact ⟨Nat.le_refl _, inside, (Nat.min_eq_right reached).symm⟩
  · rw [windows_next (by omega)] at member
    rcases mem_cons.mp member with rfl | later
    · exact ⟨Nat.le_refl _, inside, (Nat.min_eq_left (by omega)).symm⟩
    · obtain ⟨behind, rest⟩ := windows_within later
      exact ⟨by omega, rest⟩
  termination_by total - start

/-- The chunk of a window. -/
def chunkOf (text : List Char) (docId index : Nat) (window : Nat × Nat) : Chunk :=
  Chunk.new ((text.drop window.1).take (window.2 - window.1)) docId index (size (text.take window.1))

def kept (minimum : Nat) (spans : List (Nat × Nat)) : List (Nat × Nat) :=
  spans.filter fun window => window.1 + minimum ≤ window.2

theorem kept_cons (minimum : Nat) (window : Nat × Nat) (spans : List (Nat × Nat)) : kept minimum (window :: spans) =
      if window.1 + minimum ≤ window.2 then window :: kept minimum spans else kept minimum spans := by
  rw [kept, filter_cons]
  simp only [decide_eq_true_eq]
  rfl

/-- The loop pushes the chunks of the windows that are large enough. -/
theorem foldl_pushWindow {spans : List (Nat × Nat)} (chunks : List Chunk)
    (inside : ∀ window ∈ spans, window.1 ≤ window.2 ∧ window.2 ≤ text.length) :
    spans.foldl (pushWindow text docId config) chunks =
      chunks ++ (kept config.minChunkSize spans).mapIdx fun index => chunkOf text docId (chunks.length + index) := by
  induction spans generalizing chunks with
  | nil => exact (append_nil _).symm
  | cons window spans ih =>
      obtain ⟨ordered, ends⟩ := inside window mem_cons_self
      have counted : ((text.drop window.1).take (window.2 - window.1)).length = window.2 - window.1 := by
        rw [length_take, length_drop]
        omega
      rw [foldl_cons, ih _ fun other member => inside other (mem_cons_of_mem _ member), pushWindow, kept_cons,
        counted]
      by_cases enough : window.1 + config.minChunkSize ≤ window.2
      · rw [if_pos (by omega), if_pos enough, mapIdx_cons, append_assoc,
          singleton_append, chunkOf, byteOffsetOfChar_eq, Nat.add_zero]
        simp only [length_append, length_singleton, Nat.add_assoc, Nat.add_comm 1]
      · rw [if_neg (by omega), if_neg enough]

/-- The chunks of a document are those of its windows that are large enough. -/
theorem chunkDocument_eq (text : List Char) (docId : Nat) (config : ChunkConfig) (filled : text ≠ [])
    (enough : config.minChunkSize ≤ text.length) :
    chunkDocument text docId config = (kept config.minChunkSize (windows config.chunkSize
      (max (config.chunkSize - config.overlap) 1) text.length (Nat.le_max_right _ _) 0)).mapIdx
        (chunkOf text docId) := by
  rw [chunkDocument, if_neg filled, if_neg (Nat.not_lt.mpr enough)]
  dsimp only
  rw [foldl_pushWindow, nil_append]
  · simp only [length_nil, Nat.zero_add]
  · intro window member
    obtain ⟨_, inside, ends⟩ := windows_within member
    omega

/-- What the windows of a text from some place on have in common. -/
structure Covering (length overlap minimum total start : Nat) (spans : List (Nat × Nat)) : Prop where
  sizes : ∀ span ∈ spans, span.2 ≤ total ∧ span.1 + minimum ≤ span.2 ∧ span.2 ≤ span.1 + length
  linked : spans.IsChain fun span next => next.1 + overlap = span.2 ∧ span.1 < next.1 ∧ span.2 < next.2
  reached : ∃ covered ≤ total, (covered = total ∨ total < covered + minimum) ∧
    ∀ p, start ≤ p → p < covered → ∃ span ∈ spans, span.1 ≤ p ∧ p < span.2

/-- Only the last window can be too small, so the others are linked and cover the text. -/
theorem windows_covering {overlap minimum start : Nat} (valid : overlap < length) (small : minimum ≤ length)
    (steps : step = length - overlap) (inside : start < total) :
    Covering length overlap minimum total start (kept minimum (windows length step total moves start)) ∧
      ∀ span, (kept minimum (windows length step total moves start)).head? = some span →
        span = (start, min (start + length) total) := by
  by_cases reached : total ≤ start + length
  · rw [windows_last inside reached, Nat.min_eq_right reached, kept_cons]
    by_cases enough : start + minimum ≤ total
    · rw [if_pos enough]
      refine ⟨⟨?_, isChain_singleton _, total, Nat.le_refl _, .inl rfl, fun p behind before =>
        ⟨_, mem_singleton_self _, behind, before⟩⟩, fun span head => (Option.some.inj head).symm⟩
      rintro span (_ | ⟨_, none⟩)
      · exact ⟨Nat.le_refl _, enough, reached⟩
      · cases none
    · rw [if_neg enough]
      exact ⟨⟨nofun, .nil, start, by omega, .inr (by omega), fun p behind before => by omega⟩, nofun⟩
  · have short : start + length < total := by omega
    obtain ⟨⟨sizes, linked, covered, bounded, ends, covers⟩, first⟩ :=
      windows_covering valid small steps (show start + step < total by omega)
    rw [windows_next short, Nat.min_eq_left (Nat.le_of_lt short), kept_cons,
      if_pos (show start + minimum ≤ start + length by omega)]
    refine ⟨⟨?_, ?_, max (start + length) covered, by omega, by omega, ?_⟩,
      fun span head => (Option.some.inj head).symm⟩
    · rintro span (_ | ⟨_, member⟩)
      · exact ⟨Nat.le_of_lt short, by omega, Nat.le_refl _⟩
      · exact sizes span member
    · refine isChain_cons.mpr ⟨fun next head => ?_, linked⟩
      rw [first next head]
      exact ⟨by omega, by omega, by omega⟩
    · intro p behind before
      by_cases early : p < start + length
      · exact ⟨_, mem_cons_self, behind, early⟩
      · obtain ⟨span, member, place⟩ := covers p (by omega) (by omega)
        exact ⟨span, mem_cons_of_mem _ member, place⟩
  termination_by total - start

/-- A window begins and ends behind another one. -/
def Later (span next : Nat × Nat) : Prop := span.1 < next.1 ∧ span.2 < next.2

instance : Trans Later Later Later :=
  ⟨fun first second => ⟨Nat.lt_trans first.1 second.1, Nat.lt_trans first.2 second.2⟩⟩

theorem ChunkConfig.validate_ok (valid : config.validate = .ok ()) : config.overlap < config.chunkSize := by
  rw [ChunkConfig.validate] at valid
  split at valid
  case isTrue => cases valid
  case isFalse =>
    split at valid
    case isTrue => cases valid
    case isFalse less => exact Nat.lt_of_not_le less

/-- The windows of a document with a valid configuration: their sizes, the shared characters, and the
    characters that they reach. No window lies within another one. -/
theorem chunkDocument_covers (text : List Char) (docId : Nat) (config : ChunkConfig)
    (valid : config.validate = .ok ()) (small : config.minChunkSize ≤ config.chunkSize) :
    ∃ spans : List (Nat × Nat), chunkDocument text docId config = spans.mapIdx (chunkOf text docId) ∧
      (∀ chunk ∈ chunkDocument text docId config,
        config.minChunkSize ≤ chunk.text.length ∧ chunk.text.length ≤ config.chunkSize) ∧
      (∀ (index : Nat) (span next : Nat × Nat), spans[index]? = some span → spans[index + 1]? = some next →
        next.1 + config.overlap = span.2) ∧
      (∀ (index other : Nat) (span span' : Nat × Nat), spans[index]? = some span → spans[other]? = some span' →
        index ≠ other → ¬ (span'.1 ≤ span.1 ∧ span.2 ≤ span'.2)) ∧
      (config.minChunkSize ≤ text.length → ∃ covered ≤ text.length,
        (covered = text.length ∨ text.length < covered + config.minChunkSize) ∧
          ∀ p < covered, ∃ span ∈ spans, span.1 ≤ p ∧ p < span.2) := by
  by_cases filled : text = []
  · subst filled
    refine ⟨[], rfl, nofun, nofun, nofun, fun _ => ⟨0, Nat.le_refl _, .inl rfl, fun p below => absurd below (Nat.not_lt_zero p)⟩⟩
  by_cases enough : config.minChunkSize ≤ text.length
  case neg =>
    have none : chunkDocument text docId config = [] := by
      rw [chunkDocument, if_neg filled, if_pos (Nat.lt_of_not_le enough)]
    rw [none]
    exact ⟨[], rfl, nofun, nofun, nofun, fun long => absurd long enough⟩
  have less := ChunkConfig.validate_ok valid
  have steps : max (config.chunkSize - config.overlap) 1 = config.chunkSize - config.overlap := by omega
  have whole := chunkDocument_eq text docId config filled enough
  obtain ⟨⟨sizes, linked, covered, bounded, ends, covers⟩, _⟩ :=
    windows_covering less small steps (length_pos_iff.mpr filled)
  refine ⟨_, whole, ?_, ?_, ?_, fun _ => ⟨covered, bounded, ends, fun p before => covers p (Nat.zero_le p) before⟩⟩
  · intro chunk member
    rw [whole] at member
    obtain ⟨index, inside, rfl⟩ := mem_mapIdx.mp member
    obtain ⟨within, least, most⟩ := sizes _ (getElem_mem inside)
    rw [chunkOf, Chunk.new, length_take, length_drop]
    omega
  · intro index span next here there
    obtain ⟨inside, rfl⟩ := List.getElem?_eq_some_iff.mp there
    obtain ⟨inside', rfl⟩ := List.getElem?_eq_some_iff.mp here
    exact (isChain_iff_getElem.mp linked index inside).1
  · have ordered := isChain_iff_pairwise.mp (linked.imp fun span next link => (show Later span next from link.2))
    intro index other span span' here there apart contained
    obtain ⟨inside, rfl⟩ := List.getElem?_eq_some_iff.mp here
    obtain ⟨inside', rfl⟩ := List.getElem?_eq_some_iff.mp there
    rcases Nat.lt_or_gt_of_ne apart with before | behind
    · have later := pairwise_iff_getElem.mp ordered index other inside inside' before
      exact absurd contained.1 (Nat.not_le.mpr later.1)
    · have later := pairwise_iff_getElem.mp ordered other index inside' inside behind
      exact absurd contained.2 (Nat.not_le.mpr later.2)

theorem chunkDocument_covers_small : ∃ spans : List (Nat × Nat), chunkDocument ['a', 'b', 'c', 'd'] 0 ⟨3, 1, 2⟩ =
    spans.mapIdx (chunkOf ['a', 'b', 'c', 'd'] 0) := by
  obtain ⟨spans, same, _⟩ := chunkDocument_covers ['a', 'b', 'c', 'd'] 0 ⟨3, 1, 2⟩ rfl (by decide)
  exact ⟨spans, same⟩

end Pictor.Chunker
