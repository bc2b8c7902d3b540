import Pictor.Proof.Image.PreTokenizeRegex

namespace Pictor.PreTokenize
open Backtracking List

variable {classes : CharClasses} {text front before piece rest : List Char} {c : Char} {count : Nat}

/-- A letter behind a contraction with the long s. -/
def LongAt (classes : CharClasses) (text : List Char) : Prop :=
  ∃ c rest, text = '\'' :: 'ſ' :: c :: rest ∧ classes.isLetter c = true

/-- The next piece of the loop, or none where the fallback is reached. -/
def branches (classes : CharClasses) (text : List Char) : Option Nat :=
  (contraction text).or ((word classes text).or ((number classes text).or ((symbols classes text).or
    ((newlines text).or (spaces text)))))

theorem nextPiece_eq (found : branches classes text = some count) : nextPiece classes text = count := by
  rw [nextPiece, ← branches, found, Option.getD_some]

theorem any_nonempty {inside : Char → Bool} : text.head?.any inside = true ↔ ∃ c rest, text = c :: rest ∧ inside c = true := by
  cases text with
  | nil => simp
  | cons c rest => simp

theorem word_letter (letter : classes.isLetter c = true) : word classes (c :: rest) ≠ none := by
  rw [word_eq, letter]
  split
  · exact Option.some_ne_none _
  · exact Option.some_ne_none _

theorem symbols_symbol (symbol : classes.isSymbol c = true) : symbols classes (c :: rest) ≠ none := by
  rw [symbols_eq, symbol]
  split
  · exact Option.some_ne_none _
  · exact Option.some_ne_none _

theorem spaces_space (space : isWhitespace c = true) : spaces (c :: rest) ≠ none := by
  rw [spaces, any_cons, space, if_pos rfl]
  dsimp only
  split
  · exact Option.some_ne_none _
  · split <;> exact Option.some_ne_none _

/-- A character belongs to a word, a number, symbols or spaces. -/
theorem branch_some (nonempty : text ≠ []) : ¬(word classes text = none ∧ number classes text = none ∧
    symbols classes text = none ∧ spaces text = none) := by
  obtain ⟨c, rest, rfl⟩ := exists_cons_of_ne_nil nonempty
  rintro ⟨noWord, noNumber, noSymbols, noSpaces⟩
  have letter := Bool.eq_false_iff.mpr fun letter => word_letter letter noWord
  have space := Bool.eq_false_iff.mpr fun space => spaces_space space noSpaces
  have symbol := Bool.eq_false_iff.mpr fun symbol => symbols_symbol symbol noSymbols
  rw [CharClasses.isSymbol, letter, space, Bool.not_false, Bool.true_and, Bool.true_and, Bool.not_eq_false'] at symbol
  rw [number, any_cons, symbol] at noNumber
  cases noNumber

/-- The fallback is never reached. -/
theorem branches_some (nonempty : text ≠ []) : ∃ count, branches classes text = some count := by
  apply Option.ne_none_iff_exists'.mp
  intro none
  simp only [branches, Option.or_eq_none_iff] at none
  obtain ⟨_, noWord, noNumber, noSymbols, _, noSpaces⟩ := none
  exact branch_some nonempty ⟨noWord, noNumber, noSymbols, noSpaces⟩

theorem runAt_head (run : RunAt (c :: rest)) :
    isWhitespace c = true ∧ (isNewline c = true ∨ rest.head?.any isWhitespace = true) := by
  obtain ⟨front, after, parts, each, found⟩ := run
  have starts := ((blockGap_iff after).mp found).1
  obtain ⟨c', after, rfl, newline⟩ := any_nonempty.mp starts
  cases front with
  | nil =>
      cases parts
      exact ⟨isNewline_space newline, Or.inl newline⟩
  | cons c'' front =>
      obtain ⟨rfl, rfl⟩ := List.cons.inj parts
      refine ⟨(isGap_iff.mp (each c mem_cons_self)).1, Or.inr ?_⟩
      cases front with
      | nil => exact isNewline_space newline
      | cons c'' front => exact (isGap_iff.mp (each c'' (mem_cons_of_mem _ mem_cons_self))).1

/-- White space with two groups of newlines is left to the branch of the newlines. -/
theorem runAt_branches (run : RunAt text) : contraction text = none ∧ word classes text = none ∧
    number classes text = none ∧ symbols classes text = none := by
  cases text with
  | nil => exact ⟨rfl, rfl, rfl, rfl⟩
  | cons c rest =>
      obtain ⟨space, inside⟩ := runAt_head run
      obtain ⟨letter, digit⟩ := classes.solid c space
      have noSymbol : classes.isSymbol c = false := by rw [CharClasses.isSymbol, space]; rfl
      refine ⟨?_, ?_, ?_, ?_⟩
      · rw [contraction, if_neg]
        rintro ⟨mark, _⟩
        rw [Option.some.inj mark] at space
        exact absurd space (by decide)
      · rw [word_eq, letter, if_neg Bool.false_ne_true, if_neg]
        rintro ⟨leading, behind⟩
        rcases inside with newline | spaces
        · rw [CharClasses.isLeading, newline] at leading
          cases leading
        · rw [any_apart spaces fun c space => (classes.solid c space).1] at behind
          cases behind
      · rw [number, any_cons, digit]
        rfl
      · rw [symbols_eq, noSymbol, if_neg Bool.false_ne_true, if_neg]
        rintro ⟨rfl, behind⟩
        rcases inside with newline | spaces
        · exact absurd newline (by decide)
        · rw [any_apart spaces fun c space => by rw [CharClasses.isSymbol, space]; rfl] at behind
          cases behind

theorem first_pattern (text : List Char) : first (pattern classes) text =
    (first contractionPattern text).or ((word classes text).map (text.drop ·) |>.or (((number classes text).map
      (text.drop ·)).or (((symbols classes text).map (text.drop ·)).or ((first newlinesPattern text).or
        ((spaces text).map (text.drop ·)))))) := by
  rw [pattern, first_alt, first_alt, first_alt, first_alt, first_alt, first_alt, spaces_first, word_first, number_first,
    symbols_first]

theorem first_long (rest : List Char) : first (pattern classes) ('\'' :: 'ſ' :: rest) = some rest := by
  have short : first contractionPattern ('\'' :: 'ſ' :: rest) = some rest := rfl
  rw [first_pattern, short, Option.some_or]

theorem nextPiece_long (rest : List Char) :
    nextPiece classes ('\'' :: 'ſ' :: rest) = 1 + run classes.isLetter ('ſ' :: rest) := by
  have none : contraction ('\'' :: 'ſ' :: rest) = none := by
    have lower : Char.toLower 'ſ' = 'ſ' := by decide
    simp [contraction, matchContraction, lower]
  have leading : classes.isLeading '\'' = true := by
    rw [CharClasses.isLeading, classes.apostrophe.1, classes.apostrophe.2]
    decide
  apply nextPiece_eq
  rw [branches, none, Option.none_or, word_eq, if_pos ⟨leading, classes.longS⟩, Option.some_or]

theorem first_long_iff (rest : List Char) : first (pattern classes) ('\'' :: 'ſ' :: rest) =
      some (('\'' :: 'ſ' :: rest).drop (nextPiece classes ('\'' :: 'ſ' :: rest))) ↔
    ¬LongAt classes ('\'' :: 'ſ' :: rest) := by
  rw [first_long, nextPiece_long, Nat.add_comm 1, drop_succ_cons, drop_run, dropWhile_cons, if_pos classes.longS]
  constructor
  · rintro same ⟨c, rest', parts, letter⟩
    obtain ⟨_, rfl⟩ := List.cons.inj (List.cons.inj parts).2
    have lengths := congrArg List.length (Option.some.inj same)
    have shorter := (dropWhile_sublist classes.isLetter (l := rest')).length_le
    rw [dropWhile_cons, if_pos letter, length_cons] at lengths
    omega
  · intro short
    rw [dropWhile_stop]
    cases rest with
    | nil => rfl
    | cons c rest => exact Bool.eq_false_iff.mpr fun letter => short ⟨c, rest, rfl, letter⟩

/-- The loop and the expression take the same piece unless there is a long contraction or white space with two groups of
newlines. -/
theorem first_pattern_iff (nonempty : text ≠ []) :
    first (pattern classes) text = some (text.drop (nextPiece classes text)) ↔ ¬LongAt classes text ∧ ¬RunAt text := by
  by_cases long : ∃ rest, text = '\'' :: 'ſ' :: rest
  · obtain ⟨rest, rfl⟩ := long
    have noRun : ¬RunAt ('\'' :: 'ſ' :: rest) := fun run => absurd (runAt_head run).1 (by decide)
    rw [first_long_iff, and_iff_left noRun]
  · have short : ¬LongAt classes text := fun ⟨c, rest, parts, _⟩ => long ⟨_, parts⟩
    have same := contraction_first fun rest parts => long ⟨rest, parts⟩
    rw [and_iff_right short, ← newlines_first, first_pattern, same]
    by_cases run : RunAt text
    · obtain ⟨noContraction, noWord, noNumber, noSymbols⟩ := @runAt_branches classes text run
      have starts := ((blockGap_iff _).mp ((runAt_iff text).mp run)).1
      obtain ⟨count, found⟩ : ∃ count, newlines text = some count := ⟨_, (newlines_eq text).trans (if_pos starts)⟩
      have taken : ∃ rest, first newlinesPattern text = some rest := by
        apply Option.ne_none_iff_exists'.mp
        intro none
        rw [(lastLine_none_iff text).mp none] at starts
        cases starts
      obtain ⟨rest, taken⟩ := taken
      have piece : branches classes text = some count := by
        rw [branches, noContraction, noWord, noNumber, noSymbols, Option.none_or, Option.none_or, Option.none_or,
          Option.none_or, found, Option.some_or]
      rw [noContraction, noWord, noNumber, noSymbols, nextPiece_eq piece, taken, found]
      rfl
    · have here := (newlines_first text).mpr run
      obtain ⟨count, found⟩ := @branches_some classes text nonempty
      rw [here, ← Option.map_or, ← Option.map_or, ← Option.map_or, ← Option.map_or, ← Option.map_or, ← branches, found,
        nextPiece_eq found]
      simp

/-- What a piece leaves to the next one: newlines begin in a piece only behind a gap, apostrophes only at its start, and
neither of them goes on behind a symbol. -/
structure Cut (classes : CharClasses) (piece rest : List Char) : Prop where
  nonempty : piece ≠ []
  newline : ∀ before c behind, piece = before ++ c :: behind → isNewline c = true → (∀ c' ∈ before, isGap c' = true) ∨
    ∃ c', before.getLast? = some c' ∧ (classes.isSymbol c' = true ∨ isNewline c' = true)
  apostrophe : ∀ before behind, piece = before ++ '\'' :: behind → before = [] ∨
    ∃ c', before.getLast? = some c' ∧ (classes.isSymbol c' = true ∨ c' = ' ')
  beforeNewline : ∀ c, piece.getLast? = some c → classes.isSymbol c = true ∨ isNewline c = true →
    rest.head?.any isNewline = false
  beforeApostrophe : ∀ c, piece.getLast? = some c → classes.isSymbol c = true ∨ c = ' ' → rest.head? ≠ some '\''

/-- A letter or a number. -/
def isSolid (classes : CharClasses) (c : Char) : Bool := classes.isLetter c || classes.isNumber c

theorem isSolid_apart (solid : isSolid classes c = true) :
    isWhitespace c = false ∧ classes.isSymbol c = false ∧ c ≠ '\'' := by
  rw [isSolid, Bool.or_eq_true] at solid
  refine ⟨Bool.eq_false_iff.mpr fun space => ?_, ?_, ?_⟩
  · obtain ⟨letter, digit⟩ := classes.solid c space
    rw [letter, digit] at solid
    rcases solid with wrong | wrong <;> cases wrong
  · rw [CharClasses.isSymbol]
    rcases solid with letter | digit
    · rw [letter, Bool.not_true, Bool.and_false, Bool.false_and]
    · rw [digit, Bool.not_true, Bool.and_false]
  · rintro rfl
    rw [classes.apostrophe.1, classes.apostrophe.2] at solid
    rcases solid with wrong | wrong <;> cases wrong

/-- A character of the second part stands behind the whole first part. -/
theorem split_behind {first second behind : List Char} (same : first ++ second = before ++ c :: behind)
    (absent : c ∉ first) : ∃ middle, before = first ++ middle ∧ second = middle ++ c :: behind := by
  rcases append_eq_append_iff.mp same with ⟨middle, rfl, rfl⟩ | ⟨middle, rfl, tail⟩
  · exact ⟨middle, rfl, rfl⟩
  · cases middle with
    | nil => exact ⟨[], by rw [append_nil, append_nil], tail.symm⟩
    | cons c' middle =>
        obtain ⟨rfl, _⟩ := List.cons.inj tail
        exact absurd (mem_append_right _ mem_cons_self) absent

/-- A character that is missing in the second part stands in the first part. -/
theorem split_front {first second behind : List Char} (same : first ++ second = before ++ c :: behind)
    (absent : c ∉ second) : ∃ tail, first = before ++ c :: tail := by
  rcases append_eq_append_iff.mp same with ⟨middle, rfl, rfl⟩ | ⟨middle, rfl, tail⟩
  · exact absurd (mem_append_right _ mem_cons_self) absent
  · cases middle with
    | nil =>
        rw [nil_append] at tail
        exact absurd (tail ▸ mem_cons_self) absent
    | cons c' middle =>
        obtain ⟨rfl, _⟩ := List.cons.inj tail
        exact ⟨middle, rfl⟩

/-- A word, a contraction or a number. -/
theorem cut_solid {front solid : List Char} (short : front.length ≤ 1) (noNewline : ∀ c ∈ front, isNewline c = false)
    (nonempty : solid ≠ []) (each : ∀ c ∈ solid, isSolid classes c = true) : Cut classes (front ++ solid) rest := by
  have last : ∀ c, (front ++ solid).getLast? = some c → isSolid classes c = true := by
    intro c final
    rw [getLast?_append_of_ne_nil _ nonempty] at final
    exact each c (mem_of_getLast? final)
  refine ⟨fun empty => nonempty (append_eq_nil_iff.mp empty).2, ?_, ?_, ?_, ?_⟩
  · intro before c behind parts newline
    have member : c ∈ front ++ solid := parts ▸ mem_append_right _ mem_cons_self
    rcases mem_append.mp member with inside | inside
    · rw [noNewline c inside] at newline
      cases newline
    · have space := isNewline_space newline
      rw [(isSolid_apart (each c inside)).1] at space
      cases space
  · intro before behind parts
    have absent : '\'' ∉ solid := fun inside => (isSolid_apart (each _ inside)).2.2 rfl
    obtain ⟨tail, rfl⟩ := split_front parts absent
    rw [length_append, length_cons] at short
    exact Or.inl (length_eq_zero_iff.mp (by omega))
  · intro c final either
    obtain ⟨space, symbol, _⟩ := isSolid_apart (last c final)
    rw [symbol] at either
    rcases either with wrong | newline
    · cases wrong
    · rw [isNewline_space newline] at space
      cases space
  · rintro c final either
    obtain ⟨space, symbol, _⟩ := isSolid_apart (last c final)
    rw [symbol] at either
    rcases either with wrong | rfl
    · cases wrong
    · exact absurd space (by decide)

theorem isSymbol_iff : classes.isSymbol c = true ↔
    isWhitespace c = false ∧ classes.isLetter c = false ∧ classes.isNumber c = false := by
  rw [CharClasses.isSymbol, Bool.and_eq_true, Bool.and_eq_true, Bool.not_eq_true', Bool.not_eq_true', Bool.not_eq_true',
    and_assoc]

theorem isSymbol_newline (symbol : classes.isSymbol c = true) : isNewline c = false := by
  cases newline : isNewline c with
  | false => rfl
  | true =>
      have space := isNewline_space newline
      rw [(isSymbol_iff.mp symbol).1] at space
      cases space

theorem apostrophe_symbol (classes : CharClasses) : classes.isSymbol '\'' = true :=
  isSymbol_iff.mpr ⟨by decide, classes.apostrophe.1, classes.apostrophe.2⟩

variable {space gap : List Char}

/-- Symbols with an optional space and the newlines behind them. -/
theorem cut_symbols {symbols newlines : List Char} (short : space = [] ∨ space = [' ']) (some : symbols ≠ [])
    (each : ∀ c ∈ symbols, classes.isSymbol c = true) (ends : ∀ c ∈ newlines, isNewline c = true)
    (stop : rest.head?.any isNewline = false) (stop' : newlines = [] → rest.head?.any classes.isSymbol = false) :
    Cut classes (space ++ (symbols ++ newlines)) rest := by
  have noSpace : ∀ c ∈ space, isNewline c = false ∧ c ≠ '\'' := by
    intro c member
    rcases short with rfl | rfl
    · cases member
    · rw [mem_singleton.mp member]
      decide
  refine ⟨fun empty => some (append_eq_nil_iff.mp (append_eq_nil_iff.mp empty).2).1, ?_, ?_, ?_, ?_⟩
  · intro before c behind parts newline
    have absent : c ∉ space := fun inside => by
      rw [(noSpace c inside).1] at newline
      cases newline
    have absent' : c ∉ symbols := fun inside => by
      rw [isSymbol_newline (each c inside)] at newline
      cases newline
    obtain ⟨_, rfl, inner⟩ := split_behind parts absent
    obtain ⟨middle, rfl, rfl⟩ := split_behind inner absent'
    have nonempty : symbols ++ middle ≠ [] := fun empty => some (append_eq_nil_iff.mp empty).1
    obtain ⟨c', last⟩ := Option.ne_none_iff_exists'.mp (mt getLast?_eq_none_iff.mp nonempty)
    refine Or.inr ⟨c', by rw [getLast?_append_of_ne_nil _ nonempty, last], ?_⟩
    rcases mem_append.mp (mem_of_getLast? last) with inside | inside
    · exact Or.inl (each c' inside)
    · exact Or.inr (ends c' (mem_append_left _ inside))
  · intro before behind parts
    have absent : '\'' ∉ newlines := fun inside => absurd (ends _ inside) (by decide)
    rw [← append_assoc] at parts
    obtain ⟨tail, inner⟩ := split_front parts absent
    rcases eq_nil_or_concat before with rfl | ⟨front, c', rfl⟩
    · exact Or.inl rfl
    · refine Or.inr ⟨c', by rw [concat_eq_append, getLast?_concat], ?_⟩
      have member : c' ∈ space ++ symbols := inner ▸ mem_append_left _ (by simp)
      rcases mem_append.mp member with inside | inside
      · rcases short with rfl | rfl
        · cases inside
        · exact Or.inr (mem_singleton.mp inside)
      · exact Or.inl (each c' inside)
  · exact fun _ _ _ => stop
  · intro c final either same
    cases newlines with
    | nil =>
        obtain ⟨c', rest, rfl, rfl⟩ : ∃ c' rest', rest = c' :: rest' ∧ c' = '\'' := by
          cases rest with
          | nil => cases same
          | cons c' rest => exact ⟨c', rest, rfl, Option.some.inj same⟩
        have wrong := stop' rfl
        rw [any_cons, apostrophe_symbol] at wrong
        cases wrong
    | cons newline newlines =>
        rw [← append_assoc, getLast?_append_of_ne_nil _ (cons_ne_nil newline newlines)] at final
        have newline := ends c (mem_of_getLast? final)
        rcases either with symbol | rfl
        · rw [isSymbol_newline symbol] at newline
          cases newline
        · cases newline

/-- White space up to the first newlines in it. -/
theorem cut_newlines {block : List Char} (each : ∀ c ∈ gap, isGap c = true) (some : block ≠ [])
    (ends : ∀ c ∈ block, isNewline c = true) (stop : rest.head?.any isNewline = false) :
    Cut classes (gap ++ block) rest := by
  have space : ∀ c ∈ gap ++ block, isWhitespace c = true := fun c member => (mem_append.mp member).elim
    (fun inside => (isGap_iff.mp (each c inside)).1) fun inside => isNewline_space (ends c inside)
  refine ⟨fun empty => some (append_eq_nil_iff.mp empty).2, ?_, ?_, fun _ _ _ => stop, ?_⟩
  · intro before c behind parts newline
    have absent : c ∉ gap := fun inside => by
      rw [(isGap_iff.mp (each c inside)).2] at newline
      cases newline
    obtain ⟨middle, rfl, rfl⟩ := split_behind parts absent
    rcases eq_nil_or_concat middle with rfl | ⟨front, c', rfl⟩
    · rw [append_nil]
      exact Or.inl each
    · refine Or.inr ⟨c', by rw [concat_eq_append, ← append_assoc, getLast?_concat], Or.inr ?_⟩
      exact ends c' (mem_append_left _ (by simp))
  · intro before behind parts
    exact absurd (space '\'' (parts ▸ mem_append_right _ mem_cons_self)) (by decide)
  · intro c final either
    rw [getLast?_append_of_ne_nil _ some] at final
    have newline := ends c (mem_of_getLast? final)
    rcases either with symbol | rfl
    · rw [isSymbol_newline symbol] at newline
      cases newline
    · cases newline

/-- White space without newlines. -/
theorem cut_gap (some : gap ≠ []) (each : ∀ c ∈ gap, isGap c = true)
    (stop : gap.getLast? = Option.some ' ' → rest.head? ≠ Option.some '\'') : Cut classes gap rest := by
  have symbol : ∀ c, gap.getLast? = Option.some c → classes.isSymbol c = false ∧ isNewline c = false := by
    intro c last
    obtain ⟨space, newline⟩ := isGap_iff.mp (each c (mem_of_getLast? last))
    exact ⟨by rw [CharClasses.isSymbol, space]; rfl, newline⟩
  refine ⟨some, ?_, ?_, ?_, ?_⟩
  · intro before c behind parts newline
    have here := each c (parts ▸ mem_append_right _ mem_cons_self)
    rw [isNewline_gap newline] at here
    cases here
  · intro before behind parts
    exact absurd (each '\'' (parts ▸ mem_append_right _ mem_cons_self)) (by decide)
  · intro c last either
    rw [(symbol c last).1, (symbol c last).2] at either
    rcases either with wrong | wrong <;> cases wrong
  · intro c last either
    rw [(symbol c last).1] at either
    rcases either with wrong | rfl
    · cases wrong
    · exact stop last

theorem cut_at (parts : text = piece ++ rest) (length : count = piece.length) (cut : Cut classes piece rest) :
    Cut classes (text.take count) (text.drop count) := by
  rw [parts, length, take_left, drop_left]
  exact cut

/-- The parts of a text at the end of a run. -/
theorem run_parts (inside : Char → Bool) (text : List Char) : ∃ front rest, text = front ++ rest ∧
    front.length = run inside text ∧ rest = text.dropWhile inside ∧ (∀ c ∈ front, inside c = true) ∧
      rest.head?.any inside = false :=
  ⟨_, _, takeWhile_append_dropWhile.symm, rfl, rfl, fun _ member => mem_takeWhile_imp member,
    head_dropWhile _ _⟩

theorem cut_word (found : word classes text = some count) : Cut classes (text.take count) (text.drop count) := by
  cases text with
  | nil => cases found
  | cons c rest =>
      rw [word_eq] at found
      split at found
      · rename_i leads
        obtain ⟨letters, behind, rfl, length, _, each, _⟩ := run_parts classes.isLetter rest
        have some : letters ≠ [] := length_pos_iff.mp (length ▸ run_pos.mpr leads.2)
        have newline : isNewline c = false := by
          have leading := leads.1
          rw [CharClasses.isLeading, Bool.and_eq_true, Bool.and_eq_true, Bool.not_eq_true'] at leading
          exact leading.1.1
        refine cut_at (show c :: (letters ++ behind) = ([c] ++ letters) ++ behind from rfl) ?_
          (cut_solid (Nat.le_refl 1) (forall_mem_singleton.mpr newline) some fun c member => ?_)
        · rw [← Option.some.inj found, length_append, length_singleton, length]
        · rw [isSolid, each c member, Bool.true_or]
      · split at found
        · rename_i letter
          obtain ⟨letters, behind, parts, length, _, each, _⟩ := run_parts classes.isLetter (c :: rest)
          have some : letters ≠ [] := length_pos_iff.mp (length ▸ run_pos.mpr letter)
          refine cut_at (parts.trans (by rw [nil_append])) ?_
            (@cut_solid classes behind [] letters (Nat.zero_le 1) (forall_mem_nil _) some fun c member => ?_)
          · rw [← Option.some.inj found, nil_append, length]
          · rw [isSolid, each c member, Bool.true_or]
        · cases found

theorem cut_number (found : number classes text = some count) : Cut classes (text.take count) (text.drop count) := by
  cases text with
  | nil => cases found
  | cons c rest =>
      rw [number, any_cons] at found
      split at found
      · rename_i digit
        refine cut_at (show c :: rest = ([] ++ [c]) ++ rest from rfl) (Option.some.inj found).symm
          (cut_solid (Nat.zero_le 1) (forall_mem_nil _) (cons_ne_nil c []) (forall_mem_singleton.mpr ?_))
        rw [isSolid, digit, Bool.or_true]
      · cases found

theorem isAlpha_of_toLower (lower : c.toLower.isLower = true) : c.isAlpha = true := by
  rw [Char.isAlpha, Bool.or_eq_true]
  rw [Char.toLower] at lower
  split at lower
  · rename_i upper
    exact Or.inl (decide_eq_true upper)
  · exact Or.inr lower

theorem isSolid_of_toLower {lower : Char} (same : c.toLower = lower) (small : lower.isLower = true) :
    isSolid classes c = true := by
  rw [isSolid, classes.ascii c (isAlpha_of_toLower (same ▸ small)), Bool.true_or]

theorem cut_contraction (found : contraction text = some count) : Cut classes (text.take count) (text.drop count) := by
  rw [contraction] at found
  split at found
  · rename_i starts
    obtain ⟨same, long⟩ := starts
    rcases text with _ | ⟨mark, _ | ⟨letter, rest⟩⟩
    · cases same
    · exact absurd long (Nat.lt_irrefl 1)
    · have newline : isNewline mark = false := by
        rw [Option.some.inj same]
        decide
      simp only [matchContraction] at found
      split at found
      · rename_i three
        obtain ⟨letter', rest, rfl, pair⟩ := any_nonempty.mp three
        simp only [Bool.or_eq_true, decide_eq_true_eq, Prod.mk.injEq] at pair
        refine cut_at (show mark :: letter :: letter' :: rest = ([mark] ++ [letter, letter']) ++ rest from rfl)
          (Option.some.inj found).symm (cut_solid (Nat.le_refl 1) (forall_mem_singleton.mpr newline)
            (cons_ne_nil _ _) (forall_mem_cons.mpr ⟨?_, forall_mem_singleton.mpr ?_⟩))
        · rcases pair with (⟨same, _⟩ | ⟨same, _⟩) | ⟨same, _⟩ <;> exact isSolid_of_toLower same (by decide)
        · rcases pair with (⟨_, same⟩ | ⟨_, same⟩) | ⟨_, same⟩ <;> exact isSolid_of_toLower same (by decide)
      · split at found
        · rename_i two
          simp only [Bool.or_eq_true, decide_eq_true_eq] at two
          refine cut_at (show mark :: letter :: rest = ([mark] ++ [letter]) ++ rest from rfl)
            (Option.some.inj found).symm (cut_solid (Nat.le_refl 1) (forall_mem_singleton.mpr newline)
              (cons_ne_nil _ _) (forall_mem_singleton.mpr ?_))
          rcases two with ((same | same) | same) | same <;> exact isSolid_of_toLower same (by decide)
        · cases found
  · cases found

/-- The symbols of a text with the newlines behind them. -/
theorem cut_afterSpace (short : space = [] ∨ space = [' ']) (some : rest.head?.any classes.isSymbol = true)
    (length : count = space.length + (run classes.isSymbol rest + run isNewline (rest.dropWhile classes.isSymbol))) :
    Cut classes ((space ++ rest).take count) ((space ++ rest).drop count) := by
  obtain ⟨symbols, after, parts, length', rfl, each, stop⟩ := run_parts classes.isSymbol rest
  obtain ⟨newlines, behind, parts', length'', _, ends, stop'⟩ := run_parts isNewline (rest.dropWhile classes.isSymbol)
  have nonempty : symbols ≠ [] := length_pos_iff.mp (length' ▸ run_pos.mpr some)
  refine cut_at (show space ++ rest = (space ++ (symbols ++ newlines)) ++ behind from ?_) ?_
    (cut_symbols short nonempty each ends stop' fun none => ?_)
  · rw [append_assoc, append_assoc, ← parts', ← parts]
  · rw [length, length_append, length_append, length', length'']
  · rw [none, nil_append] at parts'
    rw [← parts']
    exact stop

theorem cut_symbolRun (found : symbols classes text = some count) : Cut classes (text.take count) (text.drop count) := by
  cases text with
  | nil => cases found
  | cons c rest =>
      rw [symbols_eq] at found
      split at found
      · rename_i leads
        obtain ⟨rfl, some⟩ := leads
        exact cut_afterSpace (Or.inr rfl) some (by rw [← Option.some.inj found, length_singleton, Nat.add_assoc])
      · split at found
        · rename_i symbol
          exact cut_afterSpace (Or.inl rfl) symbol (by rw [← Option.some.inj found, length_nil, Nat.zero_add])
        · cases found

theorem cut_newlineRun (found : newlines text = some count) : Cut classes (text.take count) (text.drop count) := by
  rw [newlines_eq] at found
  split at found
  · rename_i starts
    obtain ⟨gap, after, parts, length, rest, each, _⟩ := run_parts isGap text
    obtain ⟨block, behind, parts', length', _, each', stop⟩ := run_parts isNewline (text.dropWhile isGap)
    have some : block ≠ [] := length_pos_iff.mp (length' ▸ run_pos.mpr starts)
    refine cut_at (show text = (gap ++ block) ++ behind from ?_) ?_ (cut_newlines each some each' stop)
    · rw [append_assoc, ← parts', ← rest, ← parts]
    · rw [← Option.some.inj found, length_append, length, length']
  · cases found

theorem spaces_gap {after : List Char} (each : ∀ c ∈ gap, isGap c = true) (some : gap ≠ [])
    (stop : after.head?.any isWhitespace = false) : spaces (gap ++ after) = if after = [] then Option.some gap.length
      else if 2 ≤ gap.length then Option.some (gap.length - 1) else Option.some gap.length := by
  have space : ∀ c ∈ gap, isWhitespace c = true := fun c member => (isGap_iff.mp (each c member)).1
  rw [spaces, head_append some space, if_pos rfl, run_front space stop, length_append]
  simp only [Nat.left_eq_add, length_eq_zero_iff]

theorem cut_spaceRun (noSymbols : symbols classes text = none) (noNewlines : newlines text = none)
    (found : spaces text = some count) : Cut classes (text.take count) (text.drop count) := by
  obtain ⟨gap, after, rfl, _, behind, each, stop⟩ := run_parts isGap text
  rw [newlines_eq, ← behind] at noNewlines
  have stop' : after.head?.any isWhitespace = false := by
    cases after with
    | nil => rfl
    | cons c after =>
        rw [any_cons] at noNewlines stop ⊢
        cases newline : isNewline c with
        | true => rw [newline] at noNewlines; cases noNewlines
        | false =>
            rw [isGap, newline, Bool.not_false, Bool.and_true] at stop
            exact stop
  have some : gap ≠ [] := by
    rintro rfl
    rw [nil_append, spaces, stop'] at found
    cases found
  rw [spaces_gap each some stop'] at found
  split at found
  · rename_i ends
    refine cut_at rfl (Option.some.inj found).symm (cut_gap some each fun _ => ?_)
    rw [ends]
    rintro ⟨⟩
  · split at found
    · rename_i long
      obtain ⟨front, c, rfl⟩ := (eq_nil_or_concat gap).resolve_left some
      rw [concat_eq_append] at *
      rw [length_append, length_singleton] at long found
      have nonempty : front ≠ [] := length_pos_iff.mp (by omega)
      refine cut_at (show (front ++ [c]) ++ after = front ++ ([c] ++ after) from append_assoc _ _ _)
        (Option.some.inj found).symm (cut_gap nonempty (fun c' member => each c' (mem_append_left _ member)) ?_)
      rintro - same
      have here := each c (mem_append_right _ (mem_singleton_self c))
      rw [Option.some.inj same] at here
      exact absurd here (by decide)
    · rename_i short
      obtain ⟨c, rfl⟩ : ∃ c, gap = [c] := by
        have positive := length_pos_iff.mpr some
        exact length_eq_one_iff.mp (by omega)
      refine cut_at rfl (Option.some.inj found).symm (cut_gap some each fun last same => ?_)
      obtain rfl := Option.some.inj last
      rw [singleton_append, symbols_eq, if_pos] at noSymbols
      · cases noSymbols
      · exact ⟨rfl, by rw [same, Option.any_some, apostrophe_symbol]⟩

theorem cut_next (nonempty : text ≠ []) :
    Cut classes (text.take (nextPiece classes text)) (text.drop (nextPiece classes text)) := by
  obtain ⟨count, found⟩ := @branches_some classes text nonempty
  rw [nextPiece_eq found]
  rw [branches] at found
  rcases Option.or_eq_some_iff.mp found with found | ⟨_, found⟩
  · exact cut_contraction found
  rcases Option.or_eq_some_iff.mp found with found | ⟨_, found⟩
  · exact cut_word found
  rcases Option.or_eq_some_iff.mp found with found | ⟨_, found⟩
  · exact cut_number found
  rcases Option.or_eq_some_iff.mp found with found | ⟨noSymbols, found⟩
  · exact cut_symbolRun found
  rcases Option.or_eq_some_iff.mp found with found | ⟨noNewlines, found⟩
  · exact cut_newlineRun found
  · exact cut_spaceRun noSymbols noNewlines found

/-- Two groups of newlines in white space, where no symbol is in front of the first group. -/
def SplitFrom (classes : CharClasses) (front text : List Char) : Prop :=
  ∃ before after, text = before ++ after ∧ BlockGap after ∧
    ∀ c, (front ++ before).getLast? = some c → classes.isSymbol c = false ∧ isNewline c = false

/-- A contraction with the long s in front of a letter, where no symbol and no space is in front of the apostrophe. -/
def LongFrom (classes : CharClasses) (front text : List Char) : Prop :=
  ∃ before after, text = before ++ after ∧ LongAt classes after ∧
    ∀ c, (front ++ before).getLast? = some c → classes.isSymbol c = false ∧ c ≠ ' '

/-- A piece may begin between the two texts. -/
structure Boundary (classes : CharClasses) (front text : List Char) : Prop where
  newline : ∀ c, front.getLast? = some c → classes.isSymbol c = true ∨ isNewline c = true →
    text.head?.any isNewline = false
  apostrophe : ∀ c, front.getLast? = some c → classes.isSymbol c = true ∨ c = ' ' → text.head? ≠ some '\''

theorem boundary_start (text : List Char) : Boundary classes [] text := ⟨nofun, nofun⟩

theorem Cut.boundary (cut : Cut classes piece rest) (front : List Char) : Boundary classes (front ++ piece) rest := by
  constructor
  · intro c last
    rw [getLast?_append_of_ne_nil _ cut.nonempty] at last
    exact cut.beforeNewline c last
  · intro c last
    rw [getLast?_append_of_ne_nil _ cut.nonempty] at last
    exact cut.beforeApostrophe c last

theorem last_append (last : before.getLast? = some c) (front : List Char) :
    (front ++ before).getLast? = some c := by rw [getLast?_append, last, Option.some_or]

/-- Two groups of newlines begin in the next piece or behind it. -/
theorem splitFrom_step (boundary : Boundary classes front (piece ++ rest)) (cut : Cut classes piece rest) :
    SplitFrom classes front (piece ++ rest) ↔ RunAt (piece ++ rest) ∨ SplitFrom classes (front ++ piece) rest := by
  constructor
  · rintro ⟨before, after, parts, found, apart⟩
    rcases append_eq_append_iff.mp parts with ⟨middle, rfl, rfl⟩ | ⟨middle, rfl, rfl⟩
    · exact Or.inr ⟨middle, after, rfl, found, by rwa [append_assoc]⟩
    · cases middle with
      | nil => exact Or.inr ⟨[], rest, rfl, found, by rwa [append_nil, append_nil]⟩
      | cons c middle =>
          have newline : isNewline c = true := ((blockGap_iff _).mp found).1
          rcases cut.newline before c middle rfl newline with gaps | ⟨c', last, either⟩
          · exact Or.inl ⟨before, _, parts, gaps, found⟩
          · obtain ⟨symbol, newline'⟩ := apart c' (last_append last front)
            rw [symbol, newline'] at either
            rcases either with wrong | wrong <;> cases wrong
  · rintro (⟨gap, after, parts, each, found⟩ | ⟨before, after, rfl, found, apart⟩)
    · refine ⟨gap, after, parts, found, fun c last => ?_⟩
      rw [getLast?_append] at last
      rcases Option.or_eq_some_iff.mp last with inside | ⟨none, last⟩
      · obtain ⟨space, newline⟩ := isGap_iff.mp (each c (mem_of_getLast? inside))
        exact ⟨by rw [CharClasses.isSymbol, space]; rfl, newline⟩
      · rw [getLast?_eq_none_iff.mp none, nil_append] at parts
        have starts := ((blockGap_iff _).mp found).1
        rw [← parts] at starts
        have absent : ¬(classes.isSymbol c = true ∨ isNewline c = true) := fun either => by
          rw [boundary.newline c last either] at starts
          cases starts
        rw [not_or, Bool.not_eq_true, Bool.not_eq_true] at absent
        exact absent
    · exact ⟨piece ++ before, after, by rw [append_assoc], found, by rwa [← append_assoc]⟩

/-- A long contraction begins in the next piece or behind it. -/
theorem longFrom_step (boundary : Boundary classes front (piece ++ rest)) (cut : Cut classes piece rest) :
    LongFrom classes front (piece ++ rest) ↔
      LongAt classes (piece ++ rest) ∨ LongFrom classes (front ++ piece) rest := by
  constructor
  · rintro ⟨before, after, parts, found, apart⟩
    rcases append_eq_append_iff.mp parts with ⟨middle, rfl, rfl⟩ | ⟨middle, rfl, rfl⟩
    · exact Or.inr ⟨middle, after, rfl, found, by rwa [append_assoc]⟩
    · cases middle with
      | nil => exact Or.inr ⟨[], rest, rfl, found, by rwa [append_nil, append_nil]⟩
      | cons c middle =>
          have mark : c = '\'' := by
            obtain ⟨_, _, same, _⟩ := found
            exact (List.cons.inj same).1
          subst mark
          rcases cut.apostrophe before middle rfl with rfl | ⟨c', last, either⟩
          · exact Or.inl found
          · obtain ⟨symbol, space⟩ := apart c' (last_append last front)
            rw [symbol] at either
            rcases either with wrong | wrong
            · cases wrong
            · exact absurd wrong space
  · rintro (found | ⟨before, after, rfl, found, apart⟩)
    · refine ⟨[], piece ++ rest, rfl, found, fun c last => ?_⟩
      rw [append_nil] at last
      have starts : (piece ++ rest).head? = some '\'' := by
        obtain ⟨_, _, same, _⟩ := found
        rw [same, head?_cons]
      have absent : ¬(classes.isSymbol c = true ∨ c = ' ') := fun either => boundary.apostrophe c last either starts
      rw [not_or, Bool.not_eq_true] at absent
      exact absent
    · exact ⟨piece ++ before, after, by rw [append_assoc], found, by rwa [← append_assoc]⟩

theorem splitFrom_nil : ¬SplitFrom classes front [] := by
  rintro ⟨before, after, parts, found, _⟩
  rw [(append_eq_nil_iff.mp parts.symm).2] at found
  cases ((blockGap_iff []).mp found).1

theorem longFrom_nil : ¬LongFrom classes front [] := by
  rintro ⟨before, after, parts, ⟨_, _, same, _⟩, _⟩
  rw [(append_eq_nil_iff.mp parts.symm).2] at same
  cases same

theorem findAll_nil (bound : Nat) : findAll (pattern classes) bound [] = [] := by
  cases bound <;> rfl

/-- The expression matches at every place. -/
theorem first_some (nonempty : text ≠ []) : ∃ rest, first (pattern classes) text = some rest := by
  apply Option.ne_none_iff_exists'.mp
  intro none
  simp only [first_pattern, Option.or_eq_none_iff, Option.map_eq_none_iff] at none
  obtain ⟨_, noWord, noNumber, noSymbols, _, noSpaces⟩ := none
  exact branch_some nonempty ⟨noWord, noNumber, noSymbols, noSpaces⟩

theorem findAll_next (nonempty : text ≠ []) (bound : Nat) : ∃ piece rest, text = piece ++ rest ∧
    first (pattern classes) text = some rest ∧
      findAll (pattern classes) (bound + 1) text = piece :: findAll (pattern classes) bound rest := by
  obtain ⟨rest, found⟩ := @first_some classes text nonempty
  obtain ⟨piece, rfl⟩ := first_suffix found
  refine ⟨piece, rest, rfl, found, ?_⟩
  rw [findAll, search_eq nonempty found, length_append, Nat.add_sub_cancel, take_left]

/-- The loop takes the pieces of the expression exactly when no piece begins a long contraction or white space with two
groups of newlines. -/
theorem loop_iff (bound : Nat) (enough : text.length ≤ bound) (boundary : Boundary classes front text) :
    ∃ pieces, preTokenizeLoop classes bound text = some pieces ∧ pieces.flatten = text ∧
      ∀ bound', text.length < bound' → (pieces = findAll (pattern classes) bound' text ↔
        ¬LongFrom classes front text ∧ ¬SplitFrom classes front text) := by
  induction bound generalizing text front with
  | zero =>
      rw [length_eq_zero_iff.mp (Nat.le_zero.mp enough)]
      exact ⟨[], rfl, rfl, fun bound' _ =>
        ⟨fun _ => ⟨longFrom_nil, splitFrom_nil⟩, fun _ => (findAll_nil bound').symm⟩⟩
  | succ bound ih =>
      by_cases nonempty : text = []
      · subst nonempty
        exact ⟨[], rfl, rfl, fun bound' _ =>
          ⟨fun _ => ⟨longFrom_nil, splitFrom_nil⟩, fun _ => (findAll_nil bound').symm⟩⟩
      · have cut := @cut_next classes text nonempty
        have same := @first_pattern_iff classes text nonempty
        have parts : text = text.take (nextPiece classes text) ++ text.drop (nextPiece classes text) :=
          (take_append_drop _ _).symm
        have unfolded : preTokenizeLoop classes (bound + 1) text = (preTokenizeLoop classes bound
            (text.drop (nextPiece classes text))).map (text.take (nextPiece classes text) :: ·) := by
          obtain ⟨c, rest, rfl⟩ := exists_cons_of_ne_nil nonempty
          rfl
        generalize text.take (nextPiece classes text) = piece at *
        generalize text.drop (nextPiece classes text) = rest at *
        have positive := length_pos_iff.mpr cut.nonempty
        subst parts
        rw [length_append] at enough
        obtain ⟨pieces, taken, flat, later⟩ := ih (show rest.length ≤ bound by omega) (cut.boundary front)
        refine ⟨piece :: pieces, by rw [unfolded, taken, Option.map_some], by rw [flatten_cons, flat], ?_⟩
        intro bound' more
        obtain ⟨bound', rfl⟩ := Nat.exists_eq_succ_of_ne_zero (Nat.ne_of_gt (Nat.lt_of_le_of_lt (Nat.zero_le _) more))
        obtain ⟨piece', rest', parts', found, all⟩ := @findAll_next classes (piece ++ rest) nonempty bound'
        rw [longFrom_step boundary cut, splitFrom_step boundary cut, all, List.cons.injEq]
        by_cases good : ¬LongAt classes (piece ++ rest) ∧ ¬RunAt (piece ++ rest)
        · obtain rfl := Option.some.inj (found.symm.trans (same.mpr good))
          obtain rfl := append_cancel_right parts'
          rw [length_append] at more
          rw [and_iff_right rfl, later bound' (by omega)]
          simp only [not_or, good.1, good.2, not_false_eq_true, true_and]
        · constructor
          · rintro ⟨rfl, _⟩
            obtain rfl := append_cancel_left parts'
            exact absurd (same.mp found) good
          · intro apart
            exact absurd ⟨fun long => apart.1 (Or.inl long), fun run => apart.2 (Or.inl run)⟩ good

/-- The pieces of a text make it up again and are the successive matches of the expression. -/
def MatchesPattern (classes : CharClasses) (text : List Char) : Prop :=
  ∃ pieces, preTokenize classes text = some pieces ∧ pieces.flatten = text ∧
    pieces = successive (pattern classes) text

/-- No apostrophe with a long s and a letter behind it is in a text without a symbol or a space in front of it, and no
newlines are in white space with another newline behind a gap without a symbol in front of them. -/
def Regular (classes : CharClasses) (text : List Char) : Prop :=
  (∀ before c after, text = before ++ '\'' :: 'ſ' :: c :: after → classes.isLetter c = true →
    ∃ c', before.getLast? = some c' ∧ (classes.isSymbol c' = true ∨ c' = ' ')) ∧
  ∀ before block gap newline after, text = before ++ (block ++ (gap ++ newline :: after)) → block ≠ [] → gap ≠ [] →
    (∀ c ∈ block, isNewline c = true) → (∀ c ∈ gap, isWhitespace c = true ∧ isNewline c = false) →
      isNewline newline = true → ∃ c', before.getLast? = some c' ∧ (classes.isSymbol c' = true ∨ isNewline c' = true)

theorem longFrom_iff (text : List Char) : ¬LongFrom classes [] text ↔
    ∀ before c after, text = before ++ '\'' :: 'ſ' :: c :: after → classes.isLetter c = true →
      ∃ c', before.getLast? = some c' ∧ (classes.isSymbol c' = true ∨ c' = ' ') := by
  constructor
  · intro none before c after parts letter
    by_contra absent
    refine none ⟨before, _, parts, ⟨c, after, rfl, letter⟩, fun c' last => ?_⟩
    have apart := fun either => absent ⟨c', last, either⟩
    rwa [imp_false, not_or, Bool.not_eq_true] at apart
  · rintro known ⟨before, _, parts, ⟨c, after, rfl, letter⟩, apart⟩
    obtain ⟨c', last, either⟩ := known before c after parts letter
    obtain ⟨symbol, space⟩ := apart c' last
    rw [symbol] at either
    rcases either with wrong | wrong
    · cases wrong
    · exact space wrong

theorem splitFrom_iff (text : List Char) : ¬SplitFrom classes [] text ↔
    ∀ before block gap newline after, text = before ++ (block ++ (gap ++ newline :: after)) → block ≠ [] → gap ≠ [] →
      (∀ c ∈ block, isNewline c = true) → (∀ c ∈ gap, isWhitespace c = true ∧ isNewline c = false) →
        isNewline newline = true →
          ∃ c', before.getLast? = some c' ∧ (classes.isSymbol c' = true ∨ isNewline c' = true) := by
  constructor
  · intro none before block gap newline after parts some some' each each' ends
    by_contra absent
    refine none ⟨before, _, parts, ⟨block, gap, newline, after, rfl, some, some', each, fun c member =>
      isGap_iff.mpr (each' c member), ends⟩, fun c' last => ?_⟩
    have apart := fun either => absent ⟨c', last, either⟩
    rwa [imp_false, not_or, Bool.not_eq_true, Bool.not_eq_true] at apart
  · rintro known ⟨before, _, parts, ⟨block, gap, newline, after, rfl, some, some', each, each', ends⟩, apart⟩
    obtain ⟨c', last, either⟩ := known before block gap newline after parts some some' each
      (fun c member => isGap_iff.mp (each' c member)) ends
    obtain ⟨symbol, newline'⟩ := apart c' last
    rw [symbol, newline'] at either
    rcases either with wrong | wrong <;> cases wrong

/-- The pre-tokenisation matches its expression exactly on the regular texts. -/
theorem preTokenize_iff (classes : CharClasses) (text : List Char) :
    MatchesPattern classes text ↔ Regular classes text := by
  obtain ⟨pieces, taken, flat, same⟩ := loop_iff text.length (Nat.le_refl _) (@boundary_start classes text)
  rw [Regular, ← longFrom_iff, ← splitFrom_iff, ← same (text.length + 1) (Nat.lt_succ_self _)]
  constructor
  · rintro ⟨pieces', taken', _, all⟩
    obtain rfl := Option.some.inj (taken.symm.trans taken')
    exact all
  · exact fun all => ⟨pieces, taken, flat, all⟩

theorem isWhitespace_range (space : isWhitespace c = true) :
    c.toNat < 48 ∨ c.toNat = 0x85 ∨ c.toNat = 0xA0 ∨ 0x1680 ≤ c.toNat := by
  simp only [isWhitespace, Bool.or_eq_true, Bool.and_eq_true, decide_eq_true_eq] at space
  omega

theorem isAlpha_range (alpha : c.isAlpha = true) : 65 ≤ c.toNat ∧ c.toNat ≤ 122 := by
  rw [Char.isAlpha, Bool.or_eq_true, Char.isUpper, Char.isLower, decide_eq_true_eq, Bool.and_eq_true, decide_eq_true_eq,
    decide_eq_true_eq] at alpha
  rcases alpha with ⟨lower, upper⟩ | ⟨lower, upper⟩
  · have lower : 65 ≤ c.toNat := UInt32.le_iff_toNat_le.mp lower
    have upper : c.toNat ≤ 90 := UInt32.le_iff_toNat_le.mp upper
    omega
  · have lower : 97 ≤ c.toNat := UInt32.le_iff_toNat_le.mp lower
    have upper : c.toNat ≤ 122 := UInt32.le_iff_toNat_le.mp upper
    omega

theorem isDigit_range (digit : c.isDigit = true) : 48 ≤ c.toNat ∧ c.toNat ≤ 57 := by
  rw [Char.isDigit, Bool.and_eq_true, decide_eq_true_eq, decide_eq_true_eq] at digit
  exact ⟨UInt32.le_iff_toNat_le.mp digit.1, UInt32.le_iff_toNat_le.mp digit.2⟩

/-- The classes of the ASCII letters and digits, with the long s. -/
def asciiClasses : CharClasses where
  isLetter c := c.isAlpha || c = 'ſ'
  isNumber c := c.isDigit
  solid c space := by
    have range := isWhitespace_range space
    constructor
    · apply Bool.eq_false_iff.mpr
      intro letter
      rw [Bool.or_eq_true, decide_eq_true_eq] at letter
      rcases letter with alpha | rfl
      · have inside := isAlpha_range alpha
        omega
      · exact absurd space (by decide)
    · apply Bool.eq_false_iff.mpr
      intro digit
      have inside := isDigit_range digit
      omega
  apostrophe := by decide
  ascii c alpha := by rw [alpha, Bool.true_or]
  longS := by decide

/-- A space between two newlines. -/
theorem preTokenize_gap : ¬MatchesPattern asciiClasses ['\n', ' ', '\n'] := by
  rintro ⟨pieces, taken, _, all⟩
  have short : preTokenize asciiClasses ['\n', ' ', '\n'] = some [['\n'], [' ', '\n']] := by decide
  have whole : successive (pattern asciiClasses) ['\n', ' ', '\n'] = [['\n', ' ', '\n']] := by decide
  rw [short] at taken
  rw [whole, ← Option.some.inj taken] at all
  exact absurd all (by decide)

end Pictor.PreTokenize
