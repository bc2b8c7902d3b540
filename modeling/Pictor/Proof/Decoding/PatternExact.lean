import Pictor.Library.Outcome
import Pictor.Proof.Decoding.PatternSimulation

namespace Pictor.RegexNfa
open List

open Outcome

variable {chars text rest : List Char} {pos : Nat}

/-- The input at an offset is the text at the offset. -/
theorem peek_text (here : chars.drop pos = text) (offset : Nat) : chars[pos + offset]? = text[offset]? := by
  rw [← here, getElem?_drop]

theorem peek_first (here : chars.drop pos = text) : chars[pos]? = text[0]? := peek_text here 0

theorem skip_text {front : List Char} (here : chars.drop pos = front ++ rest) :
    chars.drop (pos + front.length) = rest := by
  rw [← drop_drop, here, drop_left]

theorem skip_one (here : chars.drop pos = ch :: rest) : chars.drop (pos + 1) = rest :=
  @skip_text chars rest pos [ch] here

theorem skip_two {ch' : Char} (here : chars.drop pos = ch :: ch' :: rest) : chars.drop (pos + 2) = rest :=
  @skip_text chars rest pos [ch, ch'] here

/-- The characters that the lists of a class hold. -/
def listed (classChars : List Char) (ranges : List (Char × Char)) : Set Char :=
  {ch | ch ∈ classChars ∨ ∃ range ∈ ranges, range.1 ≤ ch ∧ ch ≤ range.2}

theorem listed_append (classChars classChars' : List Char) (ranges ranges' : List (Char × Char)) :
    listed (classChars ++ classChars') (ranges ++ ranges') = listed classChars ranges ∪ listed classChars' ranges' := by
  ext ch
  simp only [listed, Set.mem_union, Set.mem_ofPred_eq, mem_append, or_and_right, exists_or]
  exact or_or_or_comm

variable {fuel : Nat} {classChars : List Char} {ranges : List (Char × Char)} {set : Set Char}

theorem inBracket_iff : inBracket classChars ranges negated ch = true ↔
      ch ∈ (if negated then (listed classChars ranges)ᶜ else listed classChars ranges) := by
  have inside : (classChars.contains ch || ranges.any fun range => range.1 ≤ ch && ch ≤ range.2) = true ↔
      ch ∈ listed classChars ranges := by
    simp [listed]
  rw [inBracket]
  cases negated with
  | false => simpa using inside
  | true =>
      rw [if_pos rfl, Set.mem_compl_iff, ← inside]
      simp

/-- The loop adds the characters of an escape. -/
theorem classLoop_escape {ch : Char} (here : chars.drop pos = '\\' :: ch :: rest) :
    ∃ more moreRanges, listed more moreRanges = classEscapeSet ch ∧ classLoop chars (fuel + 1) classChars ranges pos =
        classLoop chars fuel (classChars ++ more) (ranges ++ moreRanges) (pos + 2) := by
  have first := peek_first here
  have second := peek_text here 1
  simp only [getElem?_cons_zero, getElem?_cons_succ] at first second
  rw [classLoop.eq_def]
  simp only [first, second]
  split
  · refine ⟨[], [('0', '9')], ?_, by rw [append_nil]⟩
    ext other
    simp [listed, classEscapeSet, digitSet]
  · refine ⟨['_'], [('a', 'z'), ('A', 'Z'), ('0', '9')], ?_, rfl⟩
    ext other
    simp [listed, classEscapeSet, wordSet]
  · refine ⟨[' ', '\t', '\n', '\r'], [], ?_, by rw [append_nil]⟩
    ext other
    simp [listed, classEscapeSet, spaceSet]
  · refine ⟨[ch], [], ?_, by rw [append_nil]⟩
    rw [classEscapeSet]
    · ext other
      simp [listed]
    all_goals assumption

theorem classLoop_range {last : Char} (here : chars.drop pos = ch :: '-' :: last :: rest) (notClosed : ch ≠ ']')
    (plain : ch ≠ '\\') (open' : last ≠ ']') :
    classLoop chars (fuel + 1) classChars ranges pos = classLoop chars fuel classChars (ranges ++ [(ch, last)]) (pos + 3) := by
  have first := peek_first here
  have second := peek_text here 1
  have third := peek_text here 2
  simp only [getElem?_cons_zero, getElem?_cons_succ] at first second third
  rw [classLoop.eq_def]
  simp only [first, second, third]
  exact if_pos open'

theorem classLoop_single (here : chars.drop pos = ch :: text) (notClosed : ch ≠ ']')
    (alone : ch = '\\' → text = []) (noRange : ∀ last tail, text = '-' :: last :: tail → last = ']') :
    classLoop chars (fuel + 1) classChars ranges pos = classLoop chars fuel (classChars ++ [ch]) ranges (pos + 1) := by
  have first := peek_first here
  have second := peek_text here 1
  have third := peek_text here 2
  simp only [getElem?_cons_zero, getElem?_cons_succ] at first second third
  rw [classLoop.eq_def]
  dsimp only
  split
  · rename_i none
    rw [first] at none
    cases none
  · rename_i closed
    rw [first] at closed
    exact absurd (Option.some.inj closed) notClosed
  · rename_i slash escaped
    rw [first] at slash
    rw [second, alone (Option.some.inj slash)] at escaped
    cases escaped
  · rename_i last _ _ known dash more
    rw [first] at known
    rw [second] at dash
    rw [third] at more
    cases known
    match text, dash, more with
    | first :: second :: tail, dash, more =>
        cases dash
        cases more
        rw [if_neg (not_not_intro (noRange _ tail rfl))]
  · rename_i known _ _
    rw [first] at known
    cases known
    rfl

/-- The loop reads the members of a class. -/
theorem classLoop_reads (members : ClassMembers true text rest set) (here : chars.drop pos = text)
    (enough : text.length ≤ fuel) : ∃ more moreRanges pos', listed more moreRanges = set ∧
      classLoop chars fuel classChars ranges pos = (classChars ++ more, ranges ++ moreRanges, pos') ∧
      chars.drop (if chars[pos']? = some ']' then pos' + 1 else pos') = rest := by
  induction members generalizing fuel pos classChars ranges with
  | @close rest =>
      obtain ⟨fuel, rfl⟩ := Nat.exists_eq_add_one.mpr (Nat.lt_of_lt_of_le (Nat.succ_pos _) enough)
      have first := peek_first here
      rw [getElem?_cons_zero] at first
      refine ⟨[], [], pos, ?_, ?_, ?_⟩
      · ext ch
        simp [listed]
      · rw [classLoop.eq_def]
        simp [first]
      · rw [if_pos first]
        exact skip_one here
  | finish =>
      have first := peek_first here
      refine ⟨[], [], pos, ?_, ?_, ?_⟩
      · ext ch
        simp [listed]
      · cases fuel with
        | zero => simp [classLoop]
        | succ fuel =>
            rw [classLoop.eq_def]
            simp [first]
      · rw [if_neg (by rw [first]; nofun)]
        exact here
  | escape _ ih =>
      obtain ⟨fuel, rfl⟩ := Nat.exists_eq_add_one.mpr (Nat.lt_of_lt_of_le (Nat.succ_pos _) enough)
      obtain ⟨first, firstRanges, same, run⟩ := @classLoop_escape _ _ pos fuel classChars ranges _ here
      simp only [length_cons] at enough
      obtain ⟨more, moreRanges, pos', known, run', after⟩ := @ih (pos + 2) fuel (classChars ++ first)
        (ranges ++ firstRanges) (skip_two here) (by omega)
      refine ⟨first ++ more, firstRanges ++ moreRanges, pos', ?_, ?_, after⟩
      · rw [listed_append, same, known]
        rfl
      · rw [run, run', append_assoc, append_assoc]
  | @range ch last text rest set notClosed plain open' _ _ ih =>
      obtain ⟨fuel, rfl⟩ := Nat.exists_eq_add_one.mpr (Nat.lt_of_lt_of_le (Nat.succ_pos _) enough)
      simp only [length_cons] at enough
      obtain ⟨more, moreRanges, pos', known, run', after⟩ := @ih (pos + 3) fuel classChars
        (ranges ++ [(ch, last)]) (@skip_text _ _ _ [ch, '-', last] here) (by omega)
      refine ⟨more, (ch, last) :: moreRanges, pos', ?_, ?_, after⟩
      · rw [← nil_append more, ← singleton_append, listed_append, known]
        congr 1
        ext other
        simp [listed]
      · rw [classLoop_range here notClosed plain open', run', append_assoc]
        rfl
  | @single ch text rest set notClosed alone noRange _ ih =>
      obtain ⟨fuel, rfl⟩ := Nat.exists_eq_add_one.mpr (Nat.lt_of_lt_of_le (Nat.succ_pos _) enough)
      simp only [length_cons] at enough
      obtain ⟨more, moreRanges, pos', known, run', after⟩ := @ih (pos + 1) fuel (classChars ++ [ch]) ranges
        (skip_one here) (by omega)
      refine ⟨ch :: more, moreRanges, pos', ?_, ?_, after⟩
      · rw [← nil_append moreRanges, ← singleton_append, listed_append, known]
        congr 1
        ext other
        simp [listed]
      · rw [classLoop_single here notClosed (fun same => (alone same).2) noRange, run', append_assoc]
        rfl

/-- The compiler reads every text as a class. -/
theorem exists_classMembers (text : List Char) : ∃ rest set, ClassMembers true text rest set := by
  induction size : text.length using Nat.strong_induction_on generalizing text with
  | _ n ih =>
      cases text with
      | nil => exact ⟨[], ∅, .finish rfl⟩
      | cons ch text =>
          subst size
          simp only [length_cons] at ih
          by_cases closed : ch = ']'
          · subst closed
            exact ⟨text, ∅, .close⟩
          · cases text with
            | nil => exact ⟨[], _, .single closed (fun _ => ⟨rfl, rfl⟩) nofun (.finish rfl)⟩
            | cons ch' tail =>
                by_cases escaped : ch = '\\'
                · subst escaped
                  obtain ⟨rest, set, members⟩ := ih tail.length (by rw [length_cons]; omega) tail rfl
                  exact ⟨rest, _, .escape members⟩
                · by_cases ranged : ∃ last tail', ch' :: tail = '-' :: last :: tail' ∧ last ≠ ']'
                  · obtain ⟨last, tail', same, open'⟩ := ranged
                    cases same
                    obtain ⟨rest, set, members⟩ := ih tail'.length (by simp; omega) tail' rfl
                    exact ⟨rest, _, .range closed escaped open' nofun members⟩
                  · obtain ⟨rest, set, members⟩ := ih (ch' :: tail).length (by simp) (ch' :: tail) rfl
                    refine ⟨rest, _, .single closed (fun same => absurd same escaped) ?_ members⟩
                    intro last tail' same
                    by_contra open'
                    exact ranged ⟨last, tail', same, open'⟩

/-- The state of a class whose lists hold a set has the letters of the set. -/
theorem bracket_slots (known : (if negated then (listed classChars ranges)ᶜ else listed classChars ranges) = set)
    (x : Option Char) (next : Option Nat) :
    (NfaState.bracket classChars ranges negated none).slot x next ↔ next = none ∧ ∃ ch ∈ set, x = some ch := by
  simp only [NfaState.slot, inBracket_iff, known]
  constructor
  · rintro ⟨⟨ch, rfl, member⟩, rfl⟩
    exact ⟨rfl, ch, member, rfl⟩
  · rintro ⟨rfl, ch, member, rfl⟩
    exact ⟨⟨ch, rfl, member⟩, rfl⟩

/-- The state of a class has the characters of the class. -/
theorem parseClass_reads (form : ClassText true text rest set) (here : chars.drop pos = '[' :: text) :
    ∃ state pos', parseClass chars pos = (state, pos') ∧ chars.drop pos' = rest ∧ state.Open ∧
      ∀ x next, state.slot x next ↔ next = none ∧ ∃ ch ∈ set, x = some ch := by
  have behind := skip_one here
  have first := peek_first behind
  have bound : text.length < chars.length := by
    have size := congrArg List.length here
    rw [length_drop, length_cons] at size
    omega
  cases form with
  | @negated text rest set _ members =>
      rw [getElem?_cons_zero] at first
      rw [length_cons] at bound
      obtain ⟨more, moreRanges, pos', known, run, after⟩ :=
        @classLoop_reads chars text rest (pos + 2) chars.length [] [] set members (skip_two here) (by omega)
      refine ⟨.bracket more moreRanges true none, _, ?_, after, rfl, bracket_slots (congrArg compl known)⟩
      simp only [parseClass, first, run, nil_append, decide_true, if_true]
  | plain other _ members =>
      rw [← first] at other
      obtain ⟨more, moreRanges, pos', known, run, after⟩ :=
        @classLoop_reads chars text rest (pos + 1) chars.length [] [] set members behind (by omega)
      refine ⟨.bracket more moreRanges false none, _, ?_, after, rfl, bracket_slots known⟩
      simp only [parseClass, other, run, nil_append, decide_false, if_false]

/-- The scan stops at the text behind the group. -/
theorem groupEnd_text {depth : Nat} (here : chars.drop pos = text) :
    chars.drop (groupEnd text depth pos) = afterGroup text depth := by
  fun_induction groupEnd text depth pos with
  | case1 => rw [here, afterGroup]
  | case2 _ _ _ ih =>
      rw [afterGroup]
      exact ih (skip_one here)
  | case3 =>
      rw [afterGroup, if_pos rfl]
      exact skip_one here
  | case4 _ _ _ more ih =>
      rw [afterGroup, if_neg more]
      exact ih (skip_one here)
  | case5 =>
      rw [afterGroup, ← drop_drop, here]
      rfl
  | case6 _ _ _ _ ih =>
      rw [afterGroup]
      exact ih (skip_two here)
  | case7 _ _ ch rest opening closing _ _ ih =>
      rw [afterGroup]
      · exact ih (skip_one here)
      all_goals assumption

theorem length_afterGroup (text : List Char) (depth : Nat) : (afterGroup text depth).length ≤ text.length := by
  fun_induction afterGroup text depth with
  | case1 => rfl
  | case2 _ _ ih => exact ih.trans (Nat.le_succ _)
  | case3 => exact Nat.le_succ _
  | case4 _ _ _ ih => exact ih.trans (Nat.le_succ _)
  | case5 => exact Nat.zero_le _
  | case6 _ _ _ ih => exact ih.trans ((Nat.le_succ _).trans (Nat.le_succ _))
  | case7 _ _ _ _ _ _ _ ih => exact ih.trans (Nat.le_succ _)

theorem length_classMembers (members : ClassMembers true text rest set) : rest.length ≤ text.length := by
  induction members with
  | close => exact Nat.le_succ _
  | finish => exact le_rfl
  | escape _ ih => exact ih.trans ((Nat.le_succ _).trans (Nat.le_succ _))
  | range _ _ _ _ _ ih => exact ih.trans ((Nat.le_succ _).trans ((Nat.le_succ _).trans (Nat.le_succ _)))
  | single _ _ _ _ ih => exact ih.trans (Nat.le_succ _)

/-- An atom takes a character of the text at least. -/
theorem length_atom (form : PatternForm true (.atom language) text rest) : rest.length < text.length := by
  cases form with
  | any => exact Nat.lt_succ_self _
  | literal => exact Nat.lt_succ_self _
  | escape => exact (Nat.lt_succ_self _).trans (Nat.lt_succ_self _)
  | bracket form =>
      cases form with
      | negated _ members => exact Nat.lt_succ_of_le ((length_classMembers members).trans (Nat.le_succ _))
      | plain _ _ members => exact Nat.lt_succ_of_le (length_classMembers members)
  | group wrong => cases wrong
  | counted => exact Nat.lt_succ_of_le (length_afterGroup _ _)

theorem length_quantified (quantified : Quantified language language' text rest) : rest.length ≤ text.length := by
  cases quantified with
  | once => exact le_rfl
  | star => exact Nat.le_succ _
  | plus => exact Nat.le_succ _
  | optional => exact Nat.le_succ _

variable {states states' : List NfaState} {region used : Set Nat} {language language' : Language Char} {frag : Fragment}

theorem Holds.loopKeeps (holds : Holds states region frag language) :
    Keeps states (patch (states ++ [.split (some frag.start) none]) frag.outs states.length) region :=
  (Keeps.append states _ region).trans (Keeps.modifyAll _ holds.distinct holds.outs) fun _ inside => Or.inl inside

/-- The quantifier behind an atom makes the fragment of the item. -/
theorem quantify_reads (quantified : Quantified language language' text rest) (here : chars.drop pos = text)
    (holds : Holds states region frag language) :
    ∃ item pos' states' region', quantify chars frag pos states = (item, pos', states') ∧ chars.drop pos' = rest ∧
      Holds states' region' item language' ∧ (∀ p ∈ region', p ∈ region ∨ states.length ≤ p) ∧
      Keeps states states' region := by
  have first := peek_first here
  have new : ∀ p ∈ insert states.length region, p ∈ region ∨ states.length ≤ p := by
    rintro p (rfl | inside)
    · exact Or.inr le_rfl
    · exact Or.inl inside
  cases quantified with
  | once alone =>
      refine ⟨frag, pos, states, region, ?_, here, holds, fun p => Or.inl, Keeps.refl _ _⟩
      rw [quantify, first]
      split
      · exact absurd (alone _ ‹_›) (by decide)
      · exact absurd (alone _ ‹_›) (by decide)
      · exact absurd (alone _ ‹_›) (by decide)
      · rfl
  | star =>
      refine ⟨_, pos + 1, _, _, ?_, skip_one here, holds.star, new, holds.loopKeeps⟩
      rw [quantify, first]
      rfl
  | plus =>
      refine ⟨_, pos + 1, _, _, ?_, skip_one here, holds.plus, new, holds.loopKeeps⟩
      rw [quantify, first]
      rfl
  | optional =>
      refine ⟨_, pos + 1, _, _, ?_, skip_one here, holds.optional, new, Keeps.append _ _ _⟩
      rw [quantify, first]
      rfl

/-- The compiler follows a part of the pattern: a sequence extends the current fragments, a choice ends the
loop, and an atom is a fragment. -/
def Compiles (chars : List Char) : PatternPart → List Char → List Char → Prop
  | .choice language, text, _ => ∀ pos fuel altFrags states, chars.drop pos = text → 3 * text.length + 2 ≤ fuel →
      ∃ seqs curFrags states' alts curs languages factors,
        compileLoop chars fuel pos altFrags [] states = pure (altFrags ++ seqs, curFrags, states') ∧
        HoldsAll states' alts seqs languages ∧ HoldsAll states' curs curFrags factors ∧ Disjoint alts curs ∧
        (∀ p ∈ alts, states.length ≤ p) ∧ (∀ p ∈ curs, states.length ≤ p) ∧ Keeps states states' ∅ ∧
        languages.sum + factors.prod = language
  | .sequence language, text, rest => ∀ pos fuel altFrags curFrags states, chars.drop pos = text →
      3 * text.length + 2 ≤ fuel → ∃ pos' fuel' frags states' used factors, chars.drop pos' = rest ∧
        3 * rest.length + 2 ≤ fuel' ∧ compileLoop chars fuel pos altFrags curFrags states =
          compileLoop chars fuel' pos' altFrags (curFrags ++ frags) states' ∧
        HoldsAll states' used frags factors ∧ (∀ p ∈ used, states.length ≤ p) ∧ Keeps states states' ∅ ∧
        factors.prod = language ∧ endsSequence rest[0]? = true
  | .atom language, text, rest => ∀ pos fuel states, chars.drop pos = text → 3 * text.length + 1 ≤ fuel →
      ∃ frag pos' states' region, parseAtom chars fuel pos states = pure (frag, pos', states') ∧
        chars.drop pos' = rest ∧ Holds states' region frag language ∧ (∀ p ∈ region, states.length ≤ p) ∧
        Keeps states states' ∅

/-- A choice compiles to one fragment. -/
theorem compile_reads (compiles : Compiles chars (.choice language) text rest) (here : chars.drop pos = text)
    (enough : 3 * text.length + 3 ≤ fuel) : ∃ frag states' region, compile chars fuel pos states = pure (frag, states') ∧
      Holds states' region frag language ∧ (∀ p ∈ region, states.length ≤ p) ∧ Keeps states states' ∅ := by
  obtain ⟨fuel, rfl⟩ := Nat.exists_eq_add_one.mpr (Nat.lt_of_lt_of_le (Nat.succ_pos _) enough)
  obtain ⟨seqs, curFrags, states₁, alts, curs, languages, factors, run, all, cur, apart, newAlts, newCurs, keeps, rfl⟩ :=
    compiles pos fuel [] states here (by omega)
  obtain ⟨region, holds, new, keeps'⟩ := cur.concat
  have kept := all.keep keeps' apart
  have old : ∀ p ∈ curs, p ∈ (∅ : Set Nat) ∨ states.length ≤ p := fun p inside => Or.inr (newCurs p inside)
  have fresh : ∀ p ∈ region, states.length ≤ p := by
    intro p inside
    rcases new p inside with known | later
    · exact newCurs p known
    · exact keeps.longer.trans later
  have disjoint : Disjoint alts region := by
    rw [Set.disjoint_left]
    intro p inside inside'
    rcases new p inside' with known | later
    · exact Set.disjoint_left.mp apart inside known
    · exact absurd (all.bounded p inside) (Nat.not_lt_of_le later)
  rw [compile, run, nil_append, pure_bind]
  rcases kept with _ | ⟨first, others, split⟩
  · refine ⟨_, _, region, rfl, ?_, fresh, keeps.trans keeps' old⟩
    rwa [sum_nil, zero_add]
  · obtain ⟨disjoint₁, disjoint₂⟩ := Set.disjoint_union_left.mp disjoint
    obtain ⟨region', whole, new', keeps''⟩ :=
      first.alternationRest (others.snoc holds disjoint₂) (Set.disjoint_union_right.mpr ⟨split, disjoint₁⟩)
    refine ⟨_, _, region', rfl, ?_, ?_, ?_⟩
    · rw [List.sum_append, sum_singleton, ← add_assoc] at whole
      exact whole
    · intro p inside
      rcases new' p inside with known | (known | known) | later
      · exact newAlts p (Or.inl known)
      · exact newAlts p (Or.inr known)
      · exact fresh p known
      · exact (keeps.trans keeps' old).longer.trans later
    · exact (keeps.trans keeps' old).trans keeps'' fun p wrong => wrong.elim

/-- A state of letters compiles to a fragment of its own. -/
theorem single_reads {state : NfaState} {set : Set Char}
    (slots : ∀ x next, state.slot x next ↔ next = none ∧ ∃ ch ∈ set, x = some ch) (opened : state.Open) :
    ∃ region, Holds (single states state).2 region (single states state).1 (letters set) ∧
      (∀ p ∈ region, states.length ≤ p) ∧ Keeps states (single states state).2 ∅ :=
  ⟨_, Holds.single slots opened, fun _ inside => (Set.mem_singleton_iff.mp inside).ge, Keeps.append _ _ _⟩

theorem literal_slots (ch : Char) (x : Option Char) (next : Option Nat) :
    (NfaState.literal ch none).slot x next ↔ next = none ∧ ∃ ch' ∈ ({ch} : Set Char), x = some ch' := by
  simp [NfaState.slot, and_comm]

theorem listed_digit : listed [] [('0', '9')] = digitSet := by
  ext ch
  simp [listed, digitSet]

theorem listed_word : listed ['_'] [('a', 'z'), ('A', 'Z'), ('0', '9')] = wordSet := by
  ext ch
  simp [listed, wordSet]

theorem listed_space : listed [' ', '\t', '\n', '\r'] [] = spaceSet := by
  ext ch
  simp [listed, spaceSet]

/-- The states of the escapes have the documented letters. -/
theorem escapeState_reads (ch : Char) : (escapeState ch).Open ∧
    ∀ x next, (escapeState ch).slot x next ↔ next = none ∧ ∃ ch' ∈ escapeSet ch, x = some ch' := by
  rw [escapeState.eq_def]
  split
  · exact ⟨rfl, bracket_slots listed_digit⟩
  · exact ⟨rfl, bracket_slots (congrArg compl listed_digit)⟩
  · exact ⟨rfl, bracket_slots listed_word⟩
  · exact ⟨rfl, bracket_slots (congrArg compl listed_word)⟩
  · exact ⟨rfl, bracket_slots listed_space⟩
  · exact ⟨rfl, bracket_slots (congrArg compl listed_space)⟩
  · exact ⟨rfl, literal_slots _⟩
  · exact ⟨rfl, literal_slots _⟩
  · exact ⟨rfl, literal_slots _⟩
  · rw [escapeSet]
    · exact ⟨rfl, literal_slots _⟩
    all_goals assumption

/-- The compiler follows every reading. The induction is on the reading. -/
theorem compiles {part : PatternPart} (form : PatternForm true part text rest) : Compiles chars part text rest := by
  induction form with
  | @lastChoice language text rest last _ ih =>
      intro pos fuel altFrags states here enough
      obtain ⟨pos', fuel', frags, states', used, factors, after, enough', run, all, new, keeps, rfl, ends⟩ :=
        ih pos fuel altFrags [] states here enough
      obtain ⟨fuel', rfl⟩ := Nat.exists_eq_add_one.mpr (Nat.lt_of_lt_of_le (Nat.succ_pos _) enough')
      refine ⟨[], frags, states', ∅, used, [], factors, ?_, .nil, all, Set.empty_disjoint _, fun p => False.elim, new,
        keeps, by rw [sum_nil, zero_add]⟩
      rw [run, compileLoop, peek_first after, nil_append, append_nil]
      cases stop : rest[0]? with
      | none => rfl
      | some ch =>
          rw [stop] at last ends
          have bar : ch ≠ '|' := fun same => last (congrArg some same)
          simp only [endsSequence, Bool.or_eq_true, decide_eq_true_eq] at ends
          dsimp only
          rw [if_neg bar, if_pos (ends.resolve_left bar)]
  | @nextChoice language others text middle rest _ _ ih ih' =>
      intro pos fuel altFrags states here enough
      obtain ⟨pos', fuel', frags, states₁, used, factors, after, enough', run, all, new, keeps, rfl, _⟩ :=
        ih pos fuel altFrags [] states here enough
      rw [length_cons] at enough'
      obtain ⟨fuel', rfl⟩ := Nat.exists_eq_add_one.mpr (Nat.lt_of_lt_of_le (Nat.succ_pos _) enough')
      obtain ⟨region, holds, fresh, keeps₁⟩ := all.concat
      have inside : ∀ p ∈ region, states.length ≤ p := fun p member =>
        (fresh p member).elim (new p) keeps.longer.trans
      have keeps₂ := keeps.trans keeps₁ fun p member => Or.inr (new p member)
      obtain ⟨seqs, curFrags, states', alts, curs, languages, factors', run', all', cur, apart, newAlts, newCurs, keeps₃, rfl⟩ :=
        ih' (pos' + 1) fuel' (altFrags ++ [(concatFragments states₁ frags).1]) (concatFragments states₁ frags).2
          (skip_one after) (by omega)
      have disjoint {other : Set Nat} (later : ∀ p ∈ other, (concatFragments states₁ frags).2.length ≤ p) :
          Disjoint region other := by
        rw [Set.disjoint_left]
        exact fun p member member' => absurd (holds.bounded p member) (Nat.not_lt_of_le (later p member'))
      refine ⟨(concatFragments states₁ frags).1 :: seqs, curFrags, states', region ∪ alts, curs, _ :: languages, factors', ?_,
        .cons (holds.keep keeps₃ (Set.disjoint_empty _)) all' (disjoint newAlts), cur,
        Set.disjoint_union_left.mpr ⟨disjoint newCurs, apart⟩, ?_, ?_, keeps₂.trans keeps₃ fun p wrong => wrong.elim, ?_⟩
      · rw [run, compileLoop, peek_first after, nil_append]
        simp only [getElem?_cons_zero, if_true]
        rw [run', append_assoc, singleton_append]
      · rintro p (member | member)
        · exact inside p member
        · exact keeps₂.longer.trans (newAlts p member)
      · exact fun p member => keeps₂.longer.trans (newCurs p member)
      · rw [sum_cons, add_assoc]
  | lastAtom ends =>
      intro pos fuel altFrags curFrags states here enough
      refine ⟨pos, fuel, [], states, ∅, [], here, enough, ?_, .nil, fun p => False.elim, Keeps.refl _ _, rfl, ends⟩
      rw [append_nil]
  | @nextAtom atom item others text middle behind rest going form quantified _ ih ih' =>
      intro pos fuel altFrags curFrags states here enough
      obtain ⟨fuel, rfl⟩ := Nat.exists_eq_add_one.mpr (Nat.lt_of_lt_of_le (Nat.succ_pos _) enough)
      obtain ⟨frag, pos₁, states₁, region, run, after, holds, new, keeps⟩ := ih pos fuel states here (by omega)
      obtain ⟨frag', pos₂, states₂, region', run₁, after', holds', new', keeps'⟩ := quantify_reads quantified after holds
      have shrinks := length_atom form
      have shrinks' := length_quantified quantified
      obtain ⟨pos', fuel', frags, states', used, factors, after'', enough', run₂, all, new₂, keeps₂, rfl, ends⟩ :=
        ih' pos₂ fuel altFrags (curFrags ++ [frag']) states₂ after' (by omega)
      have keeps₁ := keeps.trans keeps' fun p member => Or.inr (new p member)
      refine ⟨pos', fuel', frag' :: frags, states', region' ∪ used, _ :: factors, after'', enough', ?_,
        .cons (holds'.keep keeps₂ (Set.disjoint_empty _)) all ?_, ?_, keeps₁.trans keeps₂ fun p wrong => wrong.elim,
        prod_cons, ends⟩
      · rw [compileLoop, peek_first here]
        cases text with
        | nil => cases going
        | cons ch text =>
            simp only [getElem?_cons_zero, endsSequence, Bool.or_eq_false_iff, decide_eq_false_iff_not] at going ⊢
            rw [if_neg going.1, if_neg going.2, run, pure_bind]
            dsimp only
            rw [run₁]
            dsimp only
            rw [run₂, append_assoc, singleton_append]
      · rw [Set.disjoint_left]
        exact fun p member member' => absurd (holds'.bounded p member) (Nat.not_lt_of_le (new₂ p member'))
      · rintro p (member | member)
        · exact (new' p member).elim (new p) keeps.longer.trans
        · exact keeps₁.longer.trans (new₂ p member)
  | any =>
      intro pos fuel states here enough
      obtain ⟨fuel, rfl⟩ := Nat.exists_eq_add_one.mpr (Nat.lt_of_lt_of_le (Nat.succ_pos _) enough)
      have slots (x : Option Char) (next : Option Nat) :
          (NfaState.any none).slot x next ↔ next = none ∧ ∃ ch ∈ (Set.univ : Set Char), x = some ch := by
        simp [NfaState.slot, and_comm]
      obtain ⟨region, holds, new, keeps⟩ := @single_reads states _ _ slots rfl
      refine ⟨_, pos + 1, _, region, ?_, skip_one here, holds, new, keeps⟩
      rw [parseAtom, peek_first here]
      rfl
  | @literal ch rest plain =>
      intro pos fuel states here enough
      obtain ⟨fuel, rfl⟩ := Nat.exists_eq_add_one.mpr (Nat.lt_of_lt_of_le (Nat.succ_pos _) enough)
      obtain ⟨region, holds, new, keeps⟩ := @single_reads states _ _ (literal_slots ch) rfl
      refine ⟨_, pos + 1, _, region, ?_, skip_one here, holds, new, keeps⟩
      simp only [special, Bool.or_eq_false_iff, decide_eq_false_iff_not] at plain
      obtain ⟨⟨⟨⟨⟨⟨quantifier, opening⟩, bracket⟩, dot⟩, backslash⟩, _⟩, _⟩ := plain
      rw [parseAtom, peek_first here, getElem?_cons_zero]
      dsimp only
      rw [if_neg opening, if_neg bracket, if_neg dot, if_neg backslash, quantifier]
      rfl
  | @escape ch rest =>
      intro pos fuel states here enough
      obtain ⟨fuel, rfl⟩ := Nat.exists_eq_add_one.mpr (Nat.lt_of_lt_of_le (Nat.succ_pos _) enough)
      obtain ⟨opened, slots⟩ := escapeState_reads ch
      obtain ⟨region, holds, new, keeps⟩ := @single_reads states _ _ slots opened
      refine ⟨_, pos + 2, _, region, ?_, skip_two here, holds, new, keeps⟩
      rw [parseAtom, peek_first here, peek_text here 1]
      rfl
  | @bracket set text rest form =>
      intro pos fuel states here enough
      obtain ⟨fuel, rfl⟩ := Nat.exists_eq_add_one.mpr (Nat.lt_of_lt_of_le (Nat.succ_pos _) enough)
      obtain ⟨state, pos', run, after, opened, slots⟩ := parseClass_reads form here
      obtain ⟨region, holds, new, keeps⟩ := @single_reads states _ _ slots opened
      refine ⟨_, pos', _, region, ?_, after, holds, new, keeps⟩
      rw [parseAtom, peek_first here, run]
      rfl
  | group wrong => cases wrong
  | @counted language text rest _ _ ih =>
      intro pos fuel states here enough
      rw [length_cons] at enough
      obtain ⟨fuel, rfl⟩ := Nat.exists_eq_add_one.mpr (Nat.lt_of_lt_of_le (Nat.succ_pos _) enough)
      obtain ⟨frag, states', region, run, holds, new, keeps⟩ := @compile_reads chars text rest (pos + 1) fuel states language
        ih (skip_one here) (by omega)
      refine ⟨frag, _, states', region, ?_, groupEnd_text (skip_one here), holds, new, keeps⟩
      rw [parseAtom, peek_first here, skip_one here, getElem?_cons_zero]
      dsimp only
      rw [if_pos rfl, run]
      rfl

/-- One more item belongs to the first sequence of a choice. -/
theorem choice_cons {atom item others : Language Char} {middle behind : List Char}
    (going : endsSequence text[0]? = false) (form : PatternForm true (.atom atom) text middle)
    (quantified : Quantified atom item middle behind) (later : PatternForm true (.choice others) behind rest) :
    ∃ whole, PatternForm true (.choice whole) text rest := by
  cases later with
  | lastChoice last sequence => exact ⟨_, .lastChoice last (.nextAtom going form quantified sequence)⟩
  | nextChoice sequence choice => exact ⟨_, .nextChoice (.nextAtom going form quantified sequence) choice⟩

theorem drop_cons (known : chars[pos]? = some ch) : chars.drop pos = ch :: chars.drop (pos + 1) := by
  obtain ⟨inside, same⟩ := List.getElem?_eq_some_iff.mp known
  rw [drop_eq_getElem_cons inside, same]

/-- Every text goes on with a quantifier or without one. -/
theorem quantify_form (atom : Language Char) (frag : Fragment) (pos : Nat) (states : List NfaState) :
    ∃ item, Quantified atom item (chars.drop pos) (chars.drop (quantify chars frag pos states).2.1) := by
  have first := peek_first (rfl : chars.drop pos = chars.drop pos)
  rw [quantify]
  split
  · rename_i known
    rw [drop_cons known]
    exact ⟨_, .optional⟩
  · rename_i known
    rw [drop_cons known]
    exact ⟨_, .star⟩
  · rename_i known
    rw [drop_cons known]
    exact ⟨_, .plus⟩
  · rename_i other star plus
    refine ⟨_, .once fun ch here => ?_⟩
    rw [← first] at here
    simp only [isQuantifier, Bool.or_eq_false_iff, decide_eq_false_iff_not]
    refine ⟨⟨?_, ?_⟩, ?_⟩
    · rintro rfl
      exact star here
    · rintro rfl
      exact plus here
    · rintro rfl
      exact other here

/-- The compiler ends, and its results belong to readings. The fuel is three times the text. -/
structure Reads (chars : List Char) (fuel : Nat) : Prop where
  choice : ∀ pos states, 3 * (chars.drop pos).length + 3 ≤ fuel →
    Ends (compile chars fuel pos states) fun _ => ∃ language, Scanned (chars.drop pos) language
  loop : ∀ pos altFrags curFrags states, 3 * (chars.drop pos).length + 2 ≤ fuel →
    Ends (compileLoop chars fuel pos altFrags curFrags states) fun _ => ∃ language, Scanned (chars.drop pos) language
  atom : ∀ pos states, endsSequence chars[pos]? = false → 3 * (chars.drop pos).length + 1 ≤ fuel →
    Ends (parseAtom chars fuel pos states) fun result =>
      ∃ language, PatternForm true (.atom language) (chars.drop pos) (chars.drop result.2.1)

/-- One more unit of fuel allows one more step. -/
theorem Reads.loop_succ (reads : Reads chars fuel) (pos : Nat) (altFrags curFrags : List Fragment)
    (states : List NfaState) (enough : 3 * (chars.drop pos).length + 2 ≤ fuel + 1) :
    Ends (compileLoop chars (fuel + 1) pos altFrags curFrags states) fun _ =>
      ∃ language, Scanned (chars.drop pos) language := by
  rw [compileLoop]
  have first := peek_first (rfl : chars.drop pos = chars.drop pos)
  cases known : chars[pos]? with
  | none =>
      rw [known] at first
      refine Ends.pure ⟨_, _, .lastChoice ?_ (.lastAtom ?_)⟩
      · rw [← first]
        nofun
      · rw [← first]
        rfl
  | some ch =>
      have text := drop_cons known
      rw [text, length_cons] at enough
      dsimp only
      split
      · rename_i bar
        apply Ends.mono (reads.loop (pos + 1) _ _ _ (by omega))
        rintro _ ⟨language, rest, form⟩
        rw [text, bar]
        exact ⟨_, rest, .nextChoice (.lastAtom rfl) form⟩
      · rename_i bar
        split
        · rename_i close
          refine Ends.pure ⟨_, _, .lastChoice ?_ (.lastAtom ?_)⟩
          · rw [text, close]
            exact fun same => absurd (Option.some.inj same) (by decide)
          · rw [text, close]
            rfl
        · rename_i close
          have going : endsSequence chars[pos]? = false := by
            rw [known, endsSequence, decide_eq_false bar, decide_eq_false close]
            rfl
          refine Ends.bind (reads.atom pos states going (by rw [text, length_cons]; omega)) ?_
          rintro ⟨frag, pos₁, states₁⟩ ⟨atom, form⟩
          obtain ⟨item, quantified⟩ := @quantify_form chars atom frag pos₁ states₁
          dsimp only at form ⊢
          generalize quantify chars frag pos₁ states₁ = next at quantified ⊢
          obtain ⟨frag', pos₂, states₂⟩ := next
          have shrinks := length_atom form
          have shrinks' := length_quantified quantified
          rw [text, length_cons] at shrinks
          rw [first] at going
          dsimp only at shrinks' quantified ⊢
          apply Ends.mono (reads.loop _ _ _ _ (by omega))
          rintro _ ⟨language, rest, later⟩
          obtain ⟨whole, choice⟩ := choice_cons going form quantified later
          exact ⟨whole, rest, choice⟩

theorem Reads.atom_succ (reads : Reads chars fuel) (pos : Nat) (states : List NfaState)
    (going : endsSequence chars[pos]? = false) (enough : 3 * (chars.drop pos).length + 1 ≤ fuel + 1) :
    Ends (parseAtom chars (fuel + 1) pos states) fun result =>
      ∃ language, PatternForm true (.atom language) (chars.drop pos) (chars.drop result.2.1) := by
  rw [parseAtom]
  cases known : chars[pos]? with
  | none => exact Ends.throw _
  | some ch =>
      have text := drop_cons known
      rw [known, endsSequence, Bool.or_eq_false_iff, decide_eq_false_iff_not, decide_eq_false_iff_not] at going
      rw [text, length_cons] at enough
      dsimp only
      split
      · rename_i opening
        refine Ends.bind (reads.choice (pos + 1) states (by omega)) ?_
        rintro ⟨inner, states'⟩ ⟨language, rest, form⟩
        apply Ends.pure
        rw [text, opening, groupEnd_text rfl]
        exact ⟨language, .counted rfl form⟩
      · rename_i opening
        split
        · rename_i bracket
          rw [bracket] at text
          have classText : ∃ rest set, ClassText true (chars.drop (pos + 1)) rest set := by
            cases behind : chars.drop (pos + 1) with
            | nil => exact ⟨[], _, .plain (by rintro ⟨⟩) (by rintro ⟨⟩) (.finish rfl)⟩
            | cons ch' tail =>
                by_cases negated : ch' = '^'
                · obtain ⟨rest, set, members⟩ := exists_classMembers tail
                  rw [negated]
                  exact ⟨rest, _, .negated (by rintro ⟨⟩) members⟩
                · obtain ⟨rest, set, members⟩ := exists_classMembers (ch' :: tail)
                  exact ⟨rest, _, .plain (fun same => negated (Option.some.inj same)) (by rintro ⟨⟩) members⟩
          obtain ⟨rest, set, form⟩ := classText
          obtain ⟨state, pos', run, after, _⟩ := parseClass_reads form text
          rw [run]
          apply Ends.pure
          rw [after, text]
          exact ⟨_, .bracket form⟩
        · rename_i bracket
          split
          · rename_i dot
            apply Ends.pure
            rw [text, dot]
            exact ⟨_, .any⟩
          · rename_i dot
            split
            · rename_i backslash
              cases behind : chars[pos + 1]? with
              | none => exact Ends.throw _
              | some escaped =>
                  apply Ends.pure
                  rw [text, backslash, drop_cons behind]
                  exact ⟨_, .escape⟩
            · rename_i backslash
              split
              · exact Ends.throw _
              · rename_i quantifier
                apply Ends.pure
                rw [text]
                refine ⟨_, .literal ?_⟩
                rw [special, decide_eq_false opening, decide_eq_false bracket, decide_eq_false dot,
                  decide_eq_false backslash, decide_eq_false going.1, decide_eq_false going.2,
                  Bool.not_eq_true _ |>.mp quantifier]
                rfl

/-- The compiler ends on every text. The induction is on the fuel. -/
theorem reads (fuel : Nat) : Reads chars fuel := by
  induction fuel with
  | zero =>
      constructor
      · exact fun pos states enough => absurd enough (by omega)
      · exact fun pos _ _ states enough => absurd enough (by omega)
      · exact fun pos states _ enough => absurd enough (by omega)
  | succ fuel ih =>
      refine ⟨?_, ih.loop_succ, ih.atom_succ⟩
      intro pos states enough
      rw [compile]
      refine Ends.bind (ih.loop pos [] [] states (by omega)) ?_
      rintro ⟨altFrags, curFrags, states'⟩ form
      dsimp only
      split
      · exact Ends.pure form
      · exact Ends.pure form

variable {pattern : List Char} {ch : Char} {negated : Bool}

/-- A pattern with a reading compiles to an automaton that matches the language. -/
theorem fromPattern_reads (scanned : Scanned pattern language) : ∃ nfa,
    (fromPattern pattern).run = some (.ok nfa) ∧ ∀ text, nfa.isFullMatch text = true ↔ text ∈ language := by
  obtain ⟨rest, form⟩ := scanned
  obtain ⟨frag, states, region, run, holds, _, _⟩ := @compile_reads pattern pattern rest 0 (compileFuel pattern) [] language
    (compiles form) rfl le_rfl
  refine ⟨⟨patch (states ++ [.accept]) frag.outs states.length, frag.start, states.length⟩, ?_, fun text => holds.matches⟩
  rw [fromPattern, run]
  rfl

/-- A pattern without a reading is rejected. -/
theorem fromPattern_rejects (unread : ∀ language, ¬ Scanned pattern language) :
    ∃ error, (fromPattern pattern).run = some (.error error) := by
  obtain ⟨outcome, run, good⟩ := (@reads pattern (compileFuel pattern)).choice 0 [] le_rfl
  cases outcome with
  | ok result =>
      obtain ⟨language, scanned⟩ := good result rfl
      exact absurd scanned (unread language)
  | error message =>
      refine ⟨.invalidPattern message, ?_⟩
      rw [fromPattern, run]
      rfl

/-- A pattern matches a language exactly when it reads as the language. -/
theorem isMatch_iff : (∀ text, RegexConstraint.isMatch pattern text = some true ↔ text ∈ language) ↔
    ReadsAs pattern language := by
  by_cases scanned : ∃ other, Scanned pattern other
  · obtain ⟨other, form⟩ := scanned
    obtain ⟨nfa, run, words⟩ := fromPattern_reads form
    have known (text : List Char) : RegexConstraint.isMatch pattern text = some true ↔ text ∈ other := by
      rw [RegexConstraint.isMatch, run, ← words text]
      exact Option.some_inj
    constructor
    · intro same
      have equal : language = other := Language.ext fun text => (same text).symm.trans (known text)
      rw [equal]
      exact Or.inl form
    · rintro (form' | ⟨_, unread⟩)
      · obtain ⟨nfa', run', words'⟩ := fromPattern_reads form'
        rw [run] at run'
        cases run'
        exact fun text => (known text).trans ((words text).symm.trans (words' text))
      · exact absurd form (unread other)
  · have unread : ∀ other, ¬ Scanned pattern other := fun other form => scanned ⟨other, form⟩
    obtain ⟨error, run⟩ := fromPattern_rejects unread
    have known (text : List Char) : ¬ RegexConstraint.isMatch pattern text = some true := by
      rw [RegexConstraint.isMatch, run]
      nofun
    constructor
    · intro same
      refine Or.inr ⟨Language.ext fun text => ?_, unread⟩
      exact iff_of_false (fun member => known text ((same text).mpr member)) (Language.notMem_zero text)
    · rintro (form | ⟨rfl, _⟩)
      · exact absurd form (unread language)
      · exact fun text => iff_of_false (known text) (Language.notMem_zero text)

/-- A pattern is rejected exactly when it has no reading. -/
theorem new_rejects_iff : (∃ error, (RegexConstraint.new pattern).run = some (.error error)) ↔
    ∀ language, ¬ Scanned pattern language := by
  rw [RegexConstraint.new]
  constructor
  · rintro ⟨error, run⟩ language scanned
    obtain ⟨nfa, run', _⟩ := fromPattern_reads scanned
    rw [ExceptT.run_bind, run'] at run
    cases run
  · intro unread
    obtain ⟨error, run⟩ := fromPattern_rejects unread
    refine ⟨error, ?_⟩
    rw [ExceptT.run_bind, run]
    rfl

end Pictor.RegexNfa

namespace Pictor.RegexConstraint

open RegexNfa

/-- Each documented pattern matches its language, and an unbalanced pattern is rejected. -/
def MatchesPattern (pattern : List Char) : Prop :=
  (∀ language, Documented pattern language → ∀ text, isMatch pattern text = some true ↔ text ∈ language) ∧
    (balanced false 0 pattern = false → ∃ error, (new pattern).run = some (.error error))

/-- A pattern matches its documented language, and is rejected if it is unbalanced, exactly when the compiler
reads it as documented, and does not read it at all if it is unbalanced. This is so for each balanced pattern
whose classes hold no parenthesis and no escape of a letter. -/
theorem matchesPattern_iff (pattern : List Char) : (MatchesPattern pattern ↔
    (∀ language, Documented pattern language → ReadsAs pattern language) ∧
      (balanced false 0 pattern = false → ∀ language, ¬ Scanned pattern language)) ∧
    (plainClasses false pattern = true → balanced false 0 pattern = true → MatchesPattern pattern) := by
  have exactly : MatchesPattern pattern ↔ (∀ language, Documented pattern language → ReadsAs pattern language) ∧
      (balanced false 0 pattern = false → ∀ language, ¬ Scanned pattern language) := by
    simp only [MatchesPattern, isMatch_iff, new_rejects_iff]
  refine ⟨exactly, fun plain even => exactly.mpr ⟨?_, ?_⟩⟩
  · intro language documented
    exact Or.inl ⟨[], (plainForm documented plain).1⟩
  · intro uneven
    rw [even] at uneven
    cases uneven

/-- The pattern ([)]) does not match its only word, and the unbalanced pattern a)b is accepted. -/
theorem groupedBracket_lost : ¬ MatchesPattern "([)])".toList ∧ ¬ MatchesPattern "a)b".toList := by
  constructor
  · rintro ⟨words, _⟩
    have set : ClassText false [')', ']', ')'] [')'] ({')'} ∪ ∅) :=
      .plain (by decide) (fun _ => by decide) (.single (by decide) (fun wrong => absurd wrong (by decide)) nofun .close)
    have inner : PatternForm false (.choice (letters ({')'} ∪ ∅) * 1)) ['[', ')', ']', ')'] [')'] :=
      .lastChoice (by decide) (.nextAtom rfl (.bracket set) (.once fun ch same => by cases same; rfl) (.lastAtom rfl))
    have whole : Documented ['(', '[', ')', ']', ')'] (letters ({')'} ∪ ∅) * 1 * 1) :=
      .lastChoice (by decide) (.nextAtom rfl (.group rfl inner) (.once nofun) (.lastAtom rfl))
    have member : [')'] ∈ letters ({')'} ∪ ∅) * 1 * 1 := by
      rw [mul_one, mul_one]
      exact ⟨')', Or.inl rfl, rfl⟩
    have found := (words _ whole [')']).mpr member
    have lost : isMatch "([)])".toList [')'] = some false := by decide
    rw [lost] at found
    cases found
  · rintro ⟨_, rejected⟩
    obtain ⟨error, run⟩ := rejected (by decide)
    have accepted : ((new "a)b".toList).run.bind Except.toOption).isSome = true := by decide
    rw [run] at accepted
    cases accepted

end Pictor.RegexConstraint
