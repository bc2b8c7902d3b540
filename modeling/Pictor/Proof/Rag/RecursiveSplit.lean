import Pictor.Proof.Rag.WindowCover

namespace Pictor.AdvancedChunker
open Chunker TextSlice List

variable {splitter : RecursiveCharSplitter} {separator text : List Char} {recurse : List Char → List (List Char)}
  {state : GroupState} {part : List Char} {group : List (List Char)}

theorem joinWith_nil (separator : List Char) : joinWith separator [] = [] := rfl

theorem joinWith_singleton (separator part : List Char) : joinWith separator [part] = part :=
  intercalate_singleton

theorem joinWith_cons (some_ : group ≠ []) (part : List Char) :
    joinWith separator (part :: group) = part ++ separator ++ joinWith separator group :=
  intercalate_cons_of_ne_nil some_

/-- A further part of a joined group stands behind the separator. -/
theorem joinWith_snoc (some_ : group ≠ []) (part : List Char) :
    joinWith separator (group ++ [part]) = joinWith separator group ++ (separator ++ part) := by
  induction group with
  | nil => exact absurd rfl some_
  | cons first group ih =>
      rw [cons_append, joinWith_cons (by simp)]
      cases group with
      | nil => rw [nil_append, joinWith_singleton, joinWith_singleton, append_assoc]
      | cons second group =>
          rw [ih (cons_ne_nil _ _), joinWith_cons (cons_ne_nil second group)]
          simp only [append_assoc]

theorem length_joinWith_le (separator : List Char) (group : List (List Char)) :
    (joinWith separator group).length ≤ (group.map fun part => part.length + separator.length).sum := by
  induction group with
  | nil => exact Nat.le_refl _
  | cons first group ih =>
      rw [map_cons, sum_cons]
      cases group with
      | nil =>
          rw [joinWith_singleton]
          omega
      | cons second group =>
          rw [joinWith_cons (cons_ne_nil second group), length_append, length_append]
          omega

section Bound

/-- The kept items and their separators fit in the overlap. -/
theorem sum_overlapItems (separator : List Char) (overlap : Nat) (items : List (List Char)) (overlapLen : Nat)
    (fits : overlapLen ≤ overlap) : overlapLen + ((overlapItems separator overlap items overlapLen).map fun part =>
      part.length + separator.length).sum ≤ overlap := by
  induction items generalizing overlapLen with
  | nil => exact fits
  | cons item items ih =>
      rw [overlapItems]
      split
      case isTrue => exact fits
      case isFalse room =>
        rw [map_cons, sum_cons, ← Nat.add_assoc]
        exact ih _ (Nat.le_of_not_lt room)

/-- The size bound of a list of pieces. -/
def Bounded (maxChars : Nat) (pieces : List (List Char)) : Prop := ∀ piece ∈ pieces, piece.length ≤ maxChars

theorem Bounded.append {pieces pieces' : List (List Char)} (first : Bounded maxChars pieces)
    (second : Bounded maxChars pieces') : Bounded maxChars (pieces ++ pieces') :=
  fun piece member => (mem_append.mp member).elim (first piece) (second piece)

theorem bounded_nil (maxChars : Nat) : Bounded maxChars [] := fun _ member => absurd member not_mem_nil

theorem bounded_singleton {piece : List Char} (fits : piece.length ≤ maxChars) : Bounded maxChars [piece] :=
  fun _ member => mem_singleton.mp member ▸ fits

theorem bounded_splitByChars (text : List Char) (maxChars overlap : Nat) :
    Bounded maxChars (splitByChars text maxChars overlap) := by
  intro piece member
  obtain ⟨span, listed, rfl⟩ := mem_map.mp member
  obtain ⟨_, _, stop⟩ := windows_within listed
  rw [window, length_take]
  omega

variable (each : ∀ text, Bounded splitter.maxChars (recurse text)) {maxChars : Nat}
include each

theorem bounded_groupPieces (group : List (List Char)) :
    Bounded splitter.maxChars (splitter.groupPieces separator recurse group) := by
  rw [RecursiveCharSplitter.groupPieces]
  split
  case isTrue => exact each _
  case isFalse fits => exact bounded_singleton (Nat.le_of_not_lt fits)

/-- A part that is too large finds at most the overlap in the open group. -/
theorem bounded_groupStep (narrow : splitter.overlap ≤ splitter.maxChars)
    (before : Bounded splitter.maxChars state.result) (part : List Char) :
    Bounded splitter.maxChars (splitter.groupStep separator recurse state part).result := by
  have flushed : Bounded splitter.maxChars (splitter.flush separator recurse state).result := by
    rw [RecursiveCharSplitter.flush]
    dsimp only
    split <;> exact before.append (bounded_groupPieces each _)
  have small : (joinWith separator (splitter.flush separator recurse state).currentGroup).length ≤
      splitter.maxChars := by
    refine Nat.le_trans (length_joinWith_le _ _) ?_
    rw [RecursiveCharSplitter.flush]
    dsimp only
    split
    case isTrue =>
      have fits := sum_overlapItems separator splitter.overlap state.currentGroup.reverse 0 (Nat.zero_le _)
      rw [map_reverse, sum_reverse]
      omega
    case isFalse => exact Nat.zero_le _
  rw [RecursiveCharSplitter.groupStep]
  dsimp only
  by_cases full : splitter.maxChars < state.currentLen +
      (if state.currentGroup = [] then 0 else separator.length) + part.length ∧ state.currentGroup ≠ []
  · rw [if_pos full]
    split
    case isTrue =>
      refine Bounded.append ?_ (each part)
      split
      case isTrue => exact flushed
      case isFalse => exact flushed.append (bounded_singleton small)
    case isFalse => exact flushed
  · rw [if_neg full]
    split
    case isTrue large =>
      have closed : state.currentGroup = [] := by
        by_contra open_
        exact full ⟨by omega, open_⟩
      rw [if_pos closed]
      exact before.append (each part)
    case isFalse => exact before

end Bound

/-- The pieces are at most as large as the bound. -/
theorem bounded_splitRecursive (narrow : splitter.overlap ≤ splitter.maxChars) (separators : List (List Char))
    (text : List Char) : Bounded splitter.maxChars (splitter.splitRecursive separators text) := by
  induction separators generalizing text with
  | nil =>
      rw [RecursiveCharSplitter.splitRecursive]
      split
      case isTrue fits => exact bounded_singleton fits
      case isFalse => exact bounded_splitByChars _ _ _
  | cons separator separators ih =>
      rw [RecursiveCharSplitter.splitRecursive]
      split
      case isTrue fits => exact bounded_singleton fits
      case isFalse =>
        dsimp only
        split
        case isTrue => exact bounded_splitByChars _ _ _
        case isFalse =>
          generalize splitParts separator text.length text = parts
          have folded : ∀ state : GroupState, Bounded splitter.maxChars state.result →
              Bounded splitter.maxChars (parts.foldl (splitter.groupStep separator
                (splitter.splitRecursive separators)) state).result := by
            induction parts with
            | nil => exact fun state before => before
            | cons part parts step => exact fun state before => step _ (bounded_groupStep ih narrow before part)
          rw [RecursiveCharSplitter.finish]
          split
          case isTrue => exact folded _ (bounded_nil _)
          case isFalse => exact (folded _ (bounded_nil _)).append (bounded_groupPieces ih _)

section Lossless

/-- A run of separators one after another. -/
def Separators (separators : List (List Char)) (gap : List Char) : Prop :=
  ∃ places : List (List Char), (∀ place ∈ places, place ∈ separators) ∧ gap = places.flatten

theorem Separators.nil (separators : List (List Char)) : Separators separators [] :=
  ⟨[], fun _ member => absurd member not_mem_nil, rfl⟩

theorem Separators.append (first second : List Char) (left : Separators separators first)
    (right : Separators separators second) : Separators separators (first ++ second) := by
  obtain ⟨places, each, rfl⟩ := left
  obtain ⟨places', each', rfl⟩ := right
  exact ⟨places ++ places', fun place member => (mem_append.mp member).elim (each place) (each' place),
    flatten_append.symm⟩

theorem Separators.single {separators : List (List Char)} (member : separator ∈ separators) :
    Separators separators separator :=
  ⟨[separator], fun _ here => mem_singleton.mp here ▸ member, flatten_singleton.symm⟩

/-- Windows whose step is their length are the text from the first of them on. -/
theorem flatten_windows {length step start : Nat} {moves : 0 < step} (even : step = length) :
    ((windows length step text.length moves start).map (window text)).flatten = text.drop start := by
  by_cases inside : start < text.length
  case neg =>
    rw [windows_end inside, drop_of_length_le (Nat.le_of_not_lt inside)]
    rfl
  by_cases reached : text.length ≤ start + length
  · rw [windows_last inside reached, map_singleton, flatten_singleton, window,
      take_of_length_le (by rw [length_drop])]
  · rw [windows_next (by omega), map_cons, flatten_cons, flatten_windows even, window, even,
      Nat.add_sub_cancel_left, ← drop_drop, take_append_drop]
  termination_by text.length - start

theorem splitParts_join (separator : List Char) (fuel : Nat) (text : List Char) :
    splitParts separator fuel text ≠ [] ∧ joinWith separator (splitParts separator fuel text) = text := by
  induction fuel generalizing text with
  | zero => exact ⟨cons_ne_nil _ _, joinWith_singleton _ _⟩
  | succ fuel ih =>
      rw [splitParts]
      split
      case h_1 => exact ⟨cons_ne_nil _ _, joinWith_singleton _ _⟩
      case h_2 before after found =>
        obtain ⟨some_, joined⟩ := ih after
        refine ⟨cons_ne_nil _ _, ?_⟩
        rw [joinWith_cons some_, joined, (TextSearch.split_spec found).1, append_assoc]

variable {separators : List (List Char)}

/-- The text in front of the open group is woven from the pieces. -/
def Holds (separators : List (List Char)) (separator : List Char) (state : GroupState) (text : List Char) : Prop :=
  ∃ front, Woven (Separators separators) state.result front ∧ text = front ++ joinWith separator state.currentGroup

variable (each : ∀ text, Woven (Separators separators) (recurse text) text)
include each

theorem woven_groupPieces (group : List (List Char)) :
    Woven (Separators separators) (splitter.groupPieces separator recurse group) (joinWith separator group) := by
  rw [RecursiveCharSplitter.groupPieces]
  split
  case isTrue => exact each _
  case isFalse => exact .single (Separators.nil _) _

/-- A part behind the separator, or a first part, keeps the text woven. -/
theorem Holds.groupStep (plain : splitter.overlap = 0) (member : separator ∈ separators)
    (holds : Holds separators separator state text) {glue : List Char}
    (glued : glue = separator ∨ glue = [] ∧ state.currentGroup = []) (part : List Char) :
    Holds separators separator (splitter.groupStep separator recurse state part) (text ++ (glue ++ part)) := by
  obtain ⟨front, woven, rfl⟩ := holds
  have gap : Separators separators glue := by
    rcases glued with rfl | ⟨rfl, _⟩
    · exact .single member
    · exact .nil _
  have closing : Woven (Separators separators) (state.result ++ splitter.groupPieces separator recurse state.currentGroup)
      (front ++ joinWith separator state.currentGroup) := woven.append Separators.append (woven_groupPieces each _)
  have flushed : splitter.flush separator recurse state =
      ⟨state.result ++ splitter.groupPieces separator recurse state.currentGroup, [], 0⟩ := by
    rw [RecursiveCharSplitter.flush]
    exact if_neg (by omega)
  rw [RecursiveCharSplitter.groupStep]
  dsimp only
  by_cases full : splitter.maxChars < state.currentLen +
      (if state.currentGroup = [] then 0 else separator.length) + part.length ∧ state.currentGroup ≠ []
  · rw [if_pos full, flushed]
    dsimp only
    split
    case isTrue =>
      refine ⟨front ++ joinWith separator state.currentGroup ++ (glue ++ part), ?_, (append_nil _).symm⟩
      rw [if_pos rfl, ← append_assoc]
      exact (closing.behind Separators.append gap).append Separators.append (each part)
    case isFalse =>
      refine ⟨front ++ joinWith separator state.currentGroup ++ glue, closing.behind Separators.append gap, ?_⟩
      rw [nil_append, joinWith_singleton, append_assoc _ glue]
  · rw [if_neg full]
    split
    case isTrue large =>
      have closed : state.currentGroup = [] := by
        by_contra open_
        exact full ⟨by omega, open_⟩
      rw [if_pos closed, closed, joinWith_nil, append_nil]
      refine ⟨front ++ (glue ++ part), ?_, (append_nil _).symm⟩
      rw [← append_assoc]
      exact (woven.behind Separators.append gap).append Separators.append (each part)
    case isFalse =>
      by_cases closed : state.currentGroup = []
      · refine ⟨front ++ glue, woven.behind Separators.append gap, ?_⟩
        rw [closed, joinWith_nil, nil_append, joinWith_singleton, append_nil, append_assoc]
      · obtain rfl := glued.resolve_right fun other => closed other.2
        refine ⟨front, woven, ?_⟩
        rw [joinWith_snoc closed, append_assoc]

theorem Holds.finish (holds : Holds separators separator state text) :
    Woven (Separators separators) (splitter.finish separator recurse state) text := by
  obtain ⟨front, woven, rfl⟩ := holds
  rw [RecursiveCharSplitter.finish]
  split
  case isTrue closed =>
    rw [closed, joinWith_nil, append_nil]
    exact woven
  case isFalse => exact woven.append Separators.append (woven_groupPieces each _)

/-- The parts of a split text are woven from the pieces of their groups. -/
theorem Holds.parts (plain : splitter.overlap = 0) (member : separator ∈ separators) {parts : List (List Char)}
    (some_ : parts ≠ []) : Holds separators separator (parts.foldl (splitter.groupStep separator recurse) ⟨[], [], 0⟩)
      (joinWith separator parts) := by
  have later (parts : List (List Char)) : ∀ state text, Holds separators separator state text →
      Holds separators separator (parts.foldl (splitter.groupStep separator recurse) state)
        (text ++ parts.flatMap (separator ++ ·)) := by
    induction parts with
    | nil =>
        intro state text holds
        rw [flatMap_nil, append_nil]
        exact holds
    | cons part parts ih =>
        intro state text holds
        rw [foldl_cons, flatMap_cons, ← append_assoc]
        exact ih _ _ (holds.groupStep each plain member (.inl rfl) part)
  cases parts with
  | nil => exact absurd rfl some_
  | cons first parts =>
      have start : Holds separators separator ⟨[], [], 0⟩ [] := ⟨[], .nil (Separators.nil _), rfl⟩
      have begun := later parts _ _ (start.groupStep each plain member (.inr ⟨rfl, rfl⟩) first)
      have joined (parts : List (List Char)) (first : List Char) :
          joinWith separator (first :: parts) = first ++ parts.flatMap (separator ++ ·) := by
        induction parts generalizing first with
        | nil => rw [joinWith_singleton, flatMap_nil, append_nil]
        | cons second parts ih =>
            rw [joinWith_cons (cons_ne_nil _ _), ih, flatMap_cons]
            simp only [append_assoc]
      rw [joined]
      exact begun

omit each

/-- Without an overlap the text is woven from its pieces and separators. -/
theorem woven_splitRecursive (plain : splitter.overlap = 0) (positive : 0 < splitter.maxChars)
    (remaining : List (List Char)) (among : ∀ separator ∈ remaining, separator ∈ separators) (text : List Char) :
    Woven (Separators separators) (splitter.splitRecursive remaining text) text := by
  have byChars (text : List Char) :
      Woven (Separators separators) (splitByChars text splitter.maxChars splitter.overlap) text := by
    have pieces := Woven.flatten (Separators.nil separators) (splitByChars text splitter.maxChars splitter.overlap)
    rw [splitByChars, flatten_windows (by omega), drop_zero] at pieces
    exact pieces
  induction remaining generalizing text with
  | nil =>
      rw [RecursiveCharSplitter.splitRecursive]
      split
      case isTrue => exact .single (Separators.nil _) _
      case isFalse => exact byChars text
  | cons separator remaining ih =>
      have inner := ih fun other member => among other (mem_cons_of_mem _ member)
      rw [RecursiveCharSplitter.splitRecursive]
      split
      case isTrue => exact .single (Separators.nil _) _
      case isFalse =>
        dsimp only
        split
        case isTrue => exact byChars text
        case isFalse =>
          obtain ⟨some_, joined⟩ := splitParts_join separator text.length text
          have held := Holds.parts inner plain (among separator mem_cons_self) some_
          rw [joined] at held
          exact held.finish inner

end Lossless

/-- The chunks of the splitter are its pieces that are not empty. -/
theorem chunk_texts (splitter : RecursiveCharSplitter) (text : List Char) (filled : text ≠ []) :
    (splitter.chunk text).map RichChunk.text =
      (splitter.splitRecursive splitter.separators text).filter fun piece => !piece.isEmpty := by
  have placed (pieces : List (List Char)) : ∀ state : List RichChunk × Nat,
      (pieces.foldl (placePiece text) state).1.map RichChunk.text =
        state.1.map RichChunk.text ++ pieces.filter fun piece => !piece.isEmpty := by
    induction pieces with
    | nil => exact fun state => (append_nil _).symm
    | cons piece pieces ih =>
        intro state
        rw [foldl_cons, ih, placePiece]
        cases piece with
        | nil => rw [if_pos rfl]; rfl
        | cons c piece =>
            rw [if_neg (cons_ne_nil _ _), map_append, append_assoc]
            rfl
  rw [RecursiveCharSplitter.chunk, if_neg filled, placed]
  rfl

/-- The chunks of the splitter keep to the bound, and without an overlap the text is woven from them
    and separators. -/
theorem chunk_lossless (splitter : RecursiveCharSplitter) (positive : 1 ≤ splitter.maxChars)
    (narrow : splitter.overlap < splitter.maxChars) (text : List Char) :
    (∀ chunk ∈ splitter.chunk text, chunk.text.length ≤ splitter.maxChars) ∧ (splitter.overlap = 0 →
        Woven (Separators splitter.separators) ((splitter.chunk text).map RichChunk.text) text) := by
  by_cases empty : text = []
  · subst empty
    exact ⟨fun _ member => absurd member not_mem_nil, fun _ => .nil (Separators.nil _)⟩
  constructor
  · intro chunk member
    have listed : chunk.text ∈ (splitter.chunk text).map RichChunk.text := mem_map_of_mem member
    rw [chunk_texts splitter text empty] at listed
    exact bounded_splitRecursive (Nat.le_of_lt narrow) _ text _ (mem_of_mem_filter listed)
  · intro plain
    rw [chunk_texts splitter text empty]
    exact (woven_splitRecursive plain positive _ (fun _ member => member) text).filter Separators.append

theorem chunk_lossless_words : Woven (Separators (RecursiveCharSplitter.new 2).separators)
    (((RecursiveCharSplitter.new 2).chunk ['a', ' ', 'b']).map RichChunk.text) ['a', ' ', 'b'] :=
  (chunk_lossless (RecursiveCharSplitter.new 2) (by decide) (by decide) ['a', ' ', 'b']).2 rfl

end Pictor.AdvancedChunker
