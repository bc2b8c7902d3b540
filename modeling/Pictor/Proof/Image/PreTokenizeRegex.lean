import Pictor.Construction.Image.Qwen3Tokenizer

namespace Pictor.PreTokenize
open Backtracking List

variable {classes : CharClasses} {text rest gap block : List Char} {c : Char} {inside : Char → Bool}

theorem drop_run (inside : Char → Bool) (text : List Char) : text.drop (run inside text) = text.dropWhile inside := by
  calc
    text.drop (run inside text) = (text.takeWhile inside ++ text.dropWhile inside).drop (run inside text) := by
      rw [takeWhile_append_dropWhile]
    _ = text.dropWhile inside := drop_left

theorem run_pos : 0 < run inside text ↔ text.head?.any inside = true := by
  cases text with
  | nil => simp [run]
  | cons c rest =>
      rw [run, takeWhile_cons, head?_cons, Option.any_some]
      cases inside c <;> simp

variable {front : List Char}

theorem run_front (each : ∀ c ∈ front, inside c = true) (stop : rest.head?.any inside = false) :
    run inside (front ++ rest) = front.length := by
  have none : rest.takeWhile inside = [] := by
    have zero := mt run_pos.mp (by rw [stop]; exact Bool.false_ne_true)
    exact length_eq_zero_iff.mp (Nat.eq_zero_of_not_pos zero)
  rw [run, takeWhile_append_of_pos each, none, append_nil]

theorem number_first (text : List Char) : first (numberPattern classes) text = (number classes text).map (text.drop ·) := by
  cases text with
  | nil => rfl
  | cons c rest =>
      rw [first, numberPattern, ends, number, head?_cons, Option.any_some]
      cases classes.isNumber c <;> rfl

theorem word_eq (c : Char) (rest : List Char) : word classes (c :: rest) =
    if classes.isLeading c = true ∧ rest.head?.any classes.isLetter = true then some (1 + run classes.isLetter rest)
    else if classes.isLetter c = true then some (run classes.isLetter (c :: rest)) else none := by
  simp only [word, head?_cons, Option.any_some, drop_one, tail_cons, run_pos]
  by_cases leads : classes.isLeading c = true ∧ rest.head?.any classes.isLetter = true
  · simp [leads.1, leads.2]
  · simp [if_neg leads]

theorem word_first (text : List Char) : first (wordPattern classes) text = (word classes text).map (text.drop ·) := by
  cases text with
  | nil => rfl
  | cons c rest =>
      rw [wordPattern, first_optional_seq, first_one_seq, first_plus, first_plus, head?_cons, Option.any_some, word_eq]
      cases classes.isLeading c <;> cases rest.head?.any classes.isLetter <;> cases classes.isLetter c <;>
        simp [drop_run, Nat.add_comm 1]

theorem symbols_eq (c : Char) (rest : List Char) : symbols classes (c :: rest) =
    if c = ' ' ∧ rest.head?.any classes.isSymbol = true then
      some (1 + run classes.isSymbol rest + run isNewline (rest.dropWhile classes.isSymbol))
    else if classes.isSymbol c = true then
      some (run classes.isSymbol (c :: rest) + run isNewline ((c :: rest).dropWhile classes.isSymbol))
    else none := by
  simp only [symbols, head?_cons, Option.some.injEq, drop_one, tail_cons, run_pos]
  by_cases leads : c = ' ' ∧ rest.head?.any classes.isSymbol = true
  · simp [leads.1, leads.2, Nat.add_comm 1, drop_run]
  · simp [if_neg leads, drop_run]

theorem symbols_first (text : List Char) :
    first (symbolsPattern classes) text = (symbols classes text).map (text.drop ·) := by
  cases text with
  | nil => rfl
  | cons c rest =>
      rw [symbolsPattern, first_optional_seq, first_one_seq, first_seq_many, first_seq_many, first_plus, first_plus,
        head?_cons, Option.any_some, symbols_eq]
      have behind (rest : List Char) : rest.drop (run classes.isSymbol rest +
          run isNewline (rest.dropWhile classes.isSymbol)) = (rest.dropWhile classes.isSymbol).dropWhile isNewline := by
        rw [← drop_drop, drop_run, drop_run]
      have behind' : (c :: rest).drop (1 + run classes.isSymbol rest + run isNewline (rest.dropWhile classes.isSymbol)) =
          (rest.dropWhile classes.isSymbol).dropWhile isNewline := by
        rw [Nat.add_assoc, Nat.add_comm 1, drop_succ_cons, behind]
      by_cases space : c = ' ' <;> cases rest.head?.any classes.isSymbol <;> cases classes.isSymbol c <;>
        simp [space, behind, ← behind']

/-- White space that ends no line. -/
def isGap (c : Char) : Bool := isWhitespace c && !isNewline c

theorem isNewline_space (newline : isNewline c = true) : isWhitespace c = true := by
  rw [isNewline, Bool.or_eq_true, decide_eq_true_eq, decide_eq_true_eq] at newline
  rcases newline with rfl | rfl <;> decide

theorem isNewline_gap (newline : isNewline c = true) : isGap c = false := by
  rw [isGap, newline, Bool.not_true, Bool.and_false]

theorem isGap_iff : isGap c = true ↔ isWhitespace c = true ∧ isNewline c = false := by
  rw [isGap, Bool.and_eq_true, Bool.not_eq_true']

/-- What is behind the last newline of the white space at the start. -/
def lastLine (text : List Char) : Option (List Char) := first newlinesPattern text

theorem lastLine_eq (c : Char) (rest : List Char) : lastLine (c :: rest) = if isWhitespace c = true then
      (lastLine rest).or (if isNewline c = true then some (rest.dropWhile isNewline) else none)
    else none := by
  rw [lastLine, lastLine, newlinesPattern, first_seq, ends, first_seq, ends, findSome_manyEnds, first_plus,
    head?_cons, Option.any_some, dropWhile_cons]
  cases newline : isNewline c with
  | true =>
      rw [isNewline_space newline]
      rfl
  | false => rfl

theorem lastLine_front (spaces : ∀ c ∈ front, isWhitespace c = true) (found : lastLine text = some rest) :
    lastLine (front ++ text) = some rest := by
  induction front with
  | nil => exact found
  | cons c front ih =>
      obtain ⟨space, spaces⟩ := forall_mem_cons.mp spaces
      rw [cons_append, lastLine_eq, if_pos space, ih spaces, Option.some_or]

theorem lastLine_none_iff (text : List Char) :
    lastLine text = none ↔ (text.dropWhile isGap).head?.any isNewline = false := by
  induction text with
  | nil => exact ⟨fun _ => rfl, fun _ => rfl⟩
  | cons c rest ih =>
      rw [lastLine_eq, dropWhile_cons, isGap]
      cases newline : isNewline c with
      | true =>
          rw [isNewline_space newline]
          simp [newline]
      | false =>
          cases space : isWhitespace c with
          | true => simpa using ih
          | false => simp [newline]

theorem lastLine_shorter (found : lastLine text = some rest) : rest.length < text.length := by
  induction text generalizing rest with
  | nil => cases found
  | cons c text ih =>
      rw [lastLine_eq] at found
      split at found
      · rcases Option.or_eq_some_iff.mp found with later | ⟨_, here⟩
        · exact Nat.lt_succ_of_lt (ih later)
        · split at here
          · cases here
            exact Nat.lt_succ_of_le (dropWhile_sublist _).length_le
          · cases here
      · cases found

/-- Newlines with no newline in the white space behind them. -/
theorem lastLine_block (some : block ≠ []) (each : ∀ c ∈ block, isNewline c = true) (none : lastLine rest = none) :
    lastLine (block ++ rest) = Option.some rest := by
  induction block with
  | nil => exact absurd rfl some
  | cons c block ih =>
      obtain ⟨newline, each⟩ := forall_mem_cons.mp each
      rw [cons_append, lastLine_eq, if_pos (isNewline_space newline), if_pos newline]
      by_cases last : block = []
      · subst last
        have stop : rest.dropWhile isNewline = rest := by
          cases rest with
          | nil => rfl
          | cons c' rest =>
              rw [lastLine_none_iff, dropWhile_cons] at none
              cases newline' : isNewline c' with
              | false => rw [dropWhile_cons, newline', if_neg Bool.false_ne_true]
              | true =>
                  rw [isNewline_gap newline', if_neg Bool.false_ne_true, head?_cons, Option.any_some, newline'] at none
                  cases none
        rw [nil_append, none, Option.none_or, stop]
      · rw [ih last each, Option.some_or]

/-- Newlines, other white space and a newline again. -/
def BlockGap (text : List Char) : Prop := ∃ block gap newline rest, text = block ++ (gap ++ newline :: rest) ∧
  block ≠ [] ∧ gap ≠ [] ∧ (∀ c ∈ block, isNewline c = true) ∧ (∀ c ∈ gap, isGap c = true) ∧ isNewline newline = true

/-- The white space at the start has newlines with a gap between them. -/
def RunAt (text : List Char) : Prop :=
  ∃ front after, text = front ++ after ∧ (∀ c ∈ front, isGap c = true) ∧ BlockGap after

theorem head_dropWhile (inside : Char → Bool) (text : List Char) : (text.dropWhile inside).head?.any inside = false := by
  induction text with
  | nil => rfl
  | cons c rest ih =>
      rw [dropWhile_cons]
      cases here : inside c with
      | true => exact ih
      | false => rw [if_neg Bool.false_ne_true, head?_cons, Option.any_some, here]

theorem dropWhile_stop (stop : text.head?.any inside = false) : text.dropWhile inside = text := by
  cases text with
  | nil => rfl
  | cons c rest =>
      rw [head?_cons, Option.any_some] at stop
      rw [dropWhile_cons, stop, if_neg Bool.false_ne_true]

theorem any_cons (inside : Char → Bool) (c : Char) (rest : List Char) : (c :: rest).head?.any inside = inside c := rfl

/-- A character of one class at the start is none of another class. -/
theorem any_apart {other : Char → Bool} (some : text.head?.any inside = true)
    (apart : ∀ c, inside c = true → other c = false) : text.head?.any other = false := by
  cases text with
  | nil => rfl
  | cons c rest => exact apart c some

theorem head_append (some : front ≠ []) (each : ∀ c ∈ front, inside c = true) :
    (front ++ rest).head?.any inside = true := by
  obtain ⟨c, front, rfl⟩ := exists_cons_of_ne_nil some
  exact each c mem_cons_self

theorem blockGap_iff (text : List Char) :
    BlockGap text ↔ text.head?.any isNewline = true ∧ lastLine (text.dropWhile isNewline) ≠ none := by
  rw [Ne, lastLine_none_iff, Bool.not_eq_false]
  constructor
  · rintro ⟨block, gap, newline, rest, rfl, some, some', each, each', ends⟩
    have stop : (gap ++ newline :: rest).head?.any isNewline = false :=
      any_apart (head_append some' each') fun c gap => (isGap_iff.mp gap).2
    have stop' : (newline :: rest).head?.any isGap = false := isNewline_gap ends
    refine ⟨head_append some each, ?_⟩
    rw [dropWhile_append_of_pos each, dropWhile_stop stop, dropWhile_append_of_pos each', dropWhile_stop stop']
    exact ends
  · rintro ⟨starts, again⟩
    have parts := @takeWhile_append_dropWhile _ isNewline text
    have parts' := @takeWhile_append_dropWhile _ isGap (text.dropWhile isNewline)
    cases ends : (text.dropWhile isNewline).dropWhile isGap with
    | nil =>
        rw [ends] at again
        cases again
    | cons newline rest =>
        rw [ends] at again parts'
        refine ⟨_, _, newline, rest, by rw [parts', parts], ?_, ?_, fun c member => mem_takeWhile_imp member,
          fun c member => mem_takeWhile_imp member, again⟩
        · intro none
          have first := run_pos.mpr starts
          rw [run, none] at first
          cases first
        · intro none
          have stop := head_dropWhile isNewline text
          rw [none, nil_append] at parts'
          rw [← parts', any_cons, show isNewline newline = true from again] at stop
          cases stop

theorem runAt_iff (text : List Char) : RunAt text ↔ BlockGap (text.dropWhile isGap) := by
  constructor
  · rintro ⟨front, after, rfl, each, found⟩
    have stop := any_apart ((blockGap_iff after).mp found).1 fun c newline => isNewline_gap newline
    rwa [dropWhile_append_of_pos each, dropWhile_stop stop]
  · intro found
    exact ⟨_, _, takeWhile_append_dropWhile.symm, fun c member => mem_takeWhile_imp member, found⟩

theorem newlines_eq (text : List Char) : newlines text = if (text.dropWhile isGap).head?.any isNewline = true then
      some (run isGap text + run isNewline (text.dropWhile isGap))
    else none := by
  rw [newlines, show (fun c => isWhitespace c && !isNewline c) = isGap from rfl]
  simp only [run_pos, drop_run]
  by_cases space : text.head?.any isWhitespace = true
  · rw [if_pos space]
  · rw [Bool.not_eq_true] at space
    have apart {other : Char → Bool} (spaces : ∀ c, other c = true → isWhitespace c = true) :
        text.head?.any other = false := by
      cases text with
      | nil => rfl
      | cons c rest => exact Bool.eq_false_iff.mpr fun here => Bool.eq_false_iff.mp space (spaces c here)
    rw [dropWhile_stop (apart fun c gap => (isGap_iff.mp gap).1), apart fun c newline => isNewline_space newline, space]
    rfl

/-- The branch of the newlines takes what the expression takes unless the newlines have a gap between them. -/
theorem newlines_first (text : List Char) :
    first newlinesPattern text = (newlines text).map (text.drop ·) ↔ ¬RunAt text := by
  rw [runAt_iff, blockGap_iff, newlines_eq]
  change lastLine text = _ ↔ _
  cases starts : (text.dropWhile isGap).head?.any isNewline with
  | false =>
      rw [(lastLine_none_iff text).mpr starts]
      simp
  | true =>
      have gap : ∀ c ∈ text.takeWhile isGap, isWhitespace c = true := fun c member =>
        (isGap_iff.mp (mem_takeWhile_imp member)).1
      have block : ∀ c ∈ (text.dropWhile isGap).takeWhile isNewline, isNewline c = true := fun c member =>
        mem_takeWhile_imp member
      have some : (text.dropWhile isGap).takeWhile isNewline ≠ [] := length_pos_iff.mp (run_pos.mpr starts)
      have parts : text = text.takeWhile isGap ++ ((text.dropWhile isGap).takeWhile isNewline ++
          (text.dropWhile isGap).dropWhile isNewline) := by
        rw [takeWhile_append_dropWhile, takeWhile_append_dropWhile]
      rw [if_pos rfl, Option.map_some, ← drop_drop, drop_run, drop_run]
      cases behind : lastLine ((text.dropWhile isGap).dropWhile isNewline) with
      | none =>
          have last := lastLine_front gap (lastLine_block some block behind)
          rw [← parts] at last
          simp [last]
      | some rest =>
          have shorter := lastLine_shorter behind
          have last := lastLine_front gap (lastLine_front (fun c member => isNewline_space (block c member)) behind)
          rw [← parts] at last
          rw [last]
          constructor
          · intro same
            rw [Option.some.inj same] at shorter
            exact absurd shorter (Nat.lt_irrefl _)
          · intro none
            exact absurd ⟨rfl, Option.some_ne_none rest⟩ none

theorem first_notBefore (text : List Char) : first (.notBefore fun c => !isWhitespace c) text =
    if text.head?.any (fun c => !isWhitespace c) = true then none else some text := by
  rw [first, ends]
  split <;> rfl

/-- White space in front of something else gives its last character back. -/
theorem trailing_many {spaces after : List Char} (each : ∀ c ∈ spaces, isWhitespace c = true)
    (stop : after.head?.any isWhitespace = false) :
    (manyEnds isWhitespace (spaces ++ after)).findSome? (first (.notBefore fun c => !isWhitespace c)) =
      if after = [] then some [] else spaces.getLast?.map (· :: after) := by
  induction spaces with
  | nil =>
      cases after with
      | nil => rfl
      | cons c after =>
          rw [any_cons] at stop
          rw [nil_append, findSome_manyEnds, stop, if_neg Bool.false_ne_true, first_notBefore, any_cons, stop]
          rfl
  | cons c spaces ih =>
      obtain ⟨space, each⟩ := forall_mem_cons.mp each
      rw [cons_append, findSome_manyEnds, space, if_pos rfl, ih each, first_notBefore, any_cons, space]
      by_cases ends : after = []
      · rw [if_pos ends, if_pos ends, Option.some_or]
      · rw [if_neg ends, if_neg ends]
        cases spaces with
        | nil => rfl
        | cons c' spaces =>
            rw [getLast?_cons_cons]
            cases last : (c' :: spaces).getLast? with
            | none => exact absurd (getLast?_eq_none_iff.mp last) (cons_ne_nil _ _)
            | some c'' => rfl

theorem spaces_first (text : List Char) :
    (first trailingPattern text).or (first spacesPattern text) = (spaces text).map (text.drop ·) := by
  cases text with
  | nil => rfl
  | cons c rest =>
      rw [trailingPattern, spacesPattern, first_seq, first_plus, any_cons, Pattern.plus, ends, ends, spaces, any_cons]
      cases space : isWhitespace c with
      | false => rfl
      | true =>
          obtain ⟨spaces, after, rfl, each, stop⟩ : ∃ spaces after, rest = spaces ++ after ∧
              (∀ c ∈ spaces, isWhitespace c = true) ∧ after.head?.any isWhitespace = false :=
            ⟨_, _, takeWhile_append_dropWhile.symm, fun c member => mem_takeWhile_imp member,
              head_dropWhile _ _⟩
          have count : run isWhitespace (c :: (spaces ++ after)) = spaces.length + 1 := by
            rw [← cons_append, run_front (forall_mem_cons.mpr ⟨space, each⟩) stop, length_cons]
          have behind : (c :: (spaces ++ after)).dropWhile isWhitespace = after := by
            rw [← cons_append, dropWhile_append_of_pos (forall_mem_cons.mpr ⟨space, each⟩),
              dropWhile_stop stop]
          simp only [if_true, flatMap_singleton, count, behind]
          rw [ends, trailing_many each stop]
          by_cases last : after = []
          · subst last
            simp
          · rw [if_neg last]
            have longer : ¬spaces.length + 1 = (c :: (spaces ++ after)).length := by
              have positive := length_pos_iff.mpr last
              rw [length_cons, length_append]
              omega
            rw [if_neg longer]
            rcases eq_nil_or_concat spaces with rfl | ⟨front, c', rfl⟩
            · rfl
            · simp

theorem first_one (inside : Char → Bool) (c : Char) (rest : List Char) :
    first (.one inside) (c :: rest) = if inside c then some rest else none := by
  rw [first, ends]
  cases inside c <;> rfl

theorem anyCase_apart {letter : Char} (short : c ≠ 'ſ') : anyCase letter c = decide (c.toLower = letter) := by
  rw [anyCase, decide_eq_false short, Bool.and_false, Bool.or_false]

/-- The letters of the contractions are tried in another order than in the expression. -/
theorem contraction_first (short : ∀ rest, text ≠ '\'' :: 'ſ' :: rest) :
    first contractionPattern text = (contraction text).map (text.drop ·) := by
  rw [contractionPattern, contraction]
  match text, short with
  | [], _ => rfl
  | [c], _ =>
      rw [first_one_seq]
      by_cases mark : c = '\'' <;> simp [mark, first, ends]
  | c :: letter :: rest, short =>
      rw [first_one_seq]
      by_cases mark : c = '\''
      · subst mark
        have here : letter ≠ 'ſ' := by
          rintro rfl
          exact short rest rfl
        have second (mark : Char) (other : mark ≠ 's') (rest : List Char) : first (.one (anyCase mark)) rest =
            if rest.head?.any (fun c => c.toLower = mark) then some (rest.drop 1) else none := by
          cases rest with
          | nil => rfl
          | cons c rest => rw [first_one, anyCase, decide_eq_false other, Bool.false_and, Bool.or_false]; rfl
        simp only [first_alt, first_one, first_one_seq, anyCase_apart here, second 'e' (by decide), second 'l' (by decide),
          matchContraction]
        generalize letter.toLower = lower
        by_cases known : lower ∈ ['s', 't', 'r', 'v', 'm', 'l', 'd']
        · simp only [mem_cons, not_mem_nil, or_false] at known
          rcases known with rfl | rfl | rfl | rfl | rfl | rfl | rfl
          all_goals
            cases rest with
            | nil => simp
            | cons c rest =>
                by_cases e : c.toLower = 'e' <;> by_cases l : c.toLower = 'l' <;> simp [e, l]
        · simp only [mem_cons, not_mem_nil, or_false, not_or] at known
          cases rest <;> simp [known]
      · simp [mark]

end Pictor.PreTokenize
