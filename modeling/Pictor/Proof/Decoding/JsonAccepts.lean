import Pictor.Proof.Decoding.JsonMachine

namespace Pictor.JsonConstraint
open List

variable {machine : JsonConstraint} {ch : Char} {text rest : List Char} {stack : List Char} {keyed : Bool}

/-- The texts that close all contexts behind a value. -/
inductive Closes : List Char → List Char → Prop
  | outside {text : List Char} : Spaces relaxed.space text [] → Closes [] text
  | close (keyed : Bool) {stack text rest : List Char} :
      Spaces relaxed.space text (closeOf keyed :: rest) → Closes stack rest →
      Closes (contextOf keyed :: stack) text
  | next (keyed : Bool) {stack text middle rest : List Char} :
      Spaces relaxed.space text (',' :: middle) →
      JsonForm relaxed (.series keyed false) middle (closeOf keyed :: rest) → Closes stack rest →
      Closes (contextOf keyed :: stack) text

/-- The texts that start with a value. -/
def ValueThen (stack text : List Char) : Prop :=
  ∃ rest, JsonForm relaxed .value text rest ∧ Closes stack rest

/-- The texts that start with the entries of the open context. -/
def SeriesThen (stack text : List Char) : Prop :=
  ∃ keyed below rest, stack = contextOf keyed :: below ∧
    JsonForm relaxed (.series keyed false) text (closeOf keyed :: rest) ∧ Closes below rest

def StringThen (stack text : List Char) : Prop :=
  ∃ body rest, text = body ++ '"' :: rest ∧ RelaxedBody body ∧ Closes stack rest

/-- The texts that a machine still asks for. -/
def Asks (machine : JsonConstraint) (text : List Char) : Prop :=
  let stack := machine.contextStack
  match machine.state with
  | .start | .inObjectValue => ∃ value, Spaces relaxed.space text value ∧ ValueThen stack value
  | .inObject | .inArray =>
      if machine.expectingCommaOrClose then Closes stack text else SeriesThen stack text
  | .inObjectKey => ∃ key rest, text = key ++ '"' :: rest ∧
      ((relaxed.key key ∧ ∃ colon value, Spaces relaxed.space rest (':' :: colon) ∧
          Spaces relaxed.space colon value ∧ ValueThen stack value) ∨
        (relaxed.bareKey key ∧ Closes stack rest))
  | .afterKey => ∃ colon value, Spaces relaxed.space text (':' :: colon) ∧
      Spaces relaxed.space colon value ∧ ValueThen stack value
  | .inString => StringThen stack text
  | .inStringEscape => ∃ c rest, text = c :: rest ∧ StringThen stack rest
  | .inNumber => ∃ digits rest, text = digits ++ rest ∧ (∀ c ∈ digits, continuesNumber c = true) ∧
      Closes stack rest
  | .inBool | .inNull => ∃ tail rest, text = tail ++ rest ∧ machine.keywordBuf ++ tail ∈ jsonLiterals ∧
      Closes stack rest
  | .complete => Closes stack text
  | .inArrayValue | .error => False

/-- The contexts that a state can have. -/
def Fits : JsonParseState → List Char → Prop
  | .start, stack | .complete, stack => stack = []
  | .inObject, stack | .inObjectKey, stack | .afterKey, stack | .inObjectValue, stack =>
      ∃ below, stack = contextOf true :: below
  | .inArray, stack => ∃ below, stack = contextOf false :: below
  | .inArrayValue, _ => False
  | .inString, _ | .inStringEscape, _ | .inNumber, _ | .inBool, _ | .inNull, _ | .error, _ => True

/-- The contexts of a run are objects and arrays, and they fit its state. -/
structure Shaped (machine : JsonConstraint) : Prop where
  contexts : Contexts machine.contextStack
  fits : Fits machine.state machine.contextStack

theorem new_shaped : Shaped new := ⟨fun _ member => absurd member not_mem_nil, rfl⟩

/-- Behind a value the contexts fit. -/
theorem After.shaped (after : After stack machine) (contexts : Contexts stack) : Shaped machine := by
  refine ⟨by rw [after.contextStack]; exact contexts, ?_⟩
  rw [after.state, after.contextStack]
  cases stack with
  | nil => rfl
  | cons context below =>
      obtain ⟨keyed, rfl⟩ := contexts context mem_cons_self
      cases keyed <;> exact ⟨below, rfl⟩

/-- Behind a value the machine asks for the closing brackets. -/
theorem After.asks (after : After stack machine) (contexts : Contexts stack) (asks : Asks machine text) :
    Closes stack text := by
  have state := after.state
  have stacked := after.contextStack
  cases stack with
  | nil =>
      have done : machine.state = .complete := state
      simpa only [Asks, done, stacked] using asks
  | cons context below =>
      obtain ⟨keyed, rfl⟩ := contexts context mem_cons_self
      have flag := after.flag (cons_ne_nil _ _)
      rw [stateAfter_contextOf] at state
      cases keyed <;> simpa [Asks, state, stacked, flag] using asks

/-- A machine goes on when it is not in error, its contexts fit, and it asks for less. -/
def GoesOn (next : JsonConstraint) (wanted : List Char → Prop) : Prop :=
  next.state = .error ∨ (Shaped next ∧ ∀ rest, Asks next rest → wanted rest)

variable {next : JsonConstraint} {wanted : List Char → Prop}

theorem After.goesOn (after : After stack next) (contexts : Contexts stack)
    (closes : ∀ rest, Closes stack rest → wanted rest) : GoesOn next wanted :=
  Or.inr ⟨after.shaped contexts, fun rest asks => closes rest (after.asks contexts asks)⟩

/-- A series of the dialect can stand at the start of a context. -/
theorem series_fresh (form : JsonForm relaxed (.series keyed false) text rest) :
    JsonForm relaxed (.series keyed true) text rest := by
  cases form with
  | none _ spaces => exact .none (Or.inl rfl) spaces
  | last _ entry => exact .last true entry
  | more _ entry series => exact .more true entry series

/-- A bracket starts a value that its series ends. -/
theorem ValueThen.open (keyed : Bool) (series : SeriesThen (contextOf keyed :: stack) text) :
    ValueThen stack ((if keyed then '{' else '[') :: text) := by
  obtain ⟨keyed', below, rest, same, form, closes⟩ := series
  cases keyed <;> cases keyed' <;> cases same
  · exact ⟨rest, .array (series_fresh form), closes⟩
  · exact ⟨rest, .object (series_fresh form), closes⟩

/-- The first character of a value is the start of what the machine asks for then. -/
theorem startValue_goesOn (contexts : Contexts machine.contextStack) :
    GoesOn (machine.startValue ch) fun rest => ValueThen machine.contextStack (ch :: rest) := by
  rw [startValue]
  split
  · rename_i same
    subst same
    refine Or.inr ⟨⟨contexts.cons true, _, rfl⟩, fun rest asks => ?_⟩
    exact ValueThen.open true asks
  split
  · rename_i same
    subst same
    refine Or.inr ⟨⟨contexts.cons false, _, rfl⟩, fun rest asks => ?_⟩
    exact ValueThen.open false asks
  split
  · rename_i same
    subst same
    refine Or.inr ⟨⟨contexts, trivial⟩, ?_⟩
    rintro _ ⟨body, rest, rfl, known, closes⟩
    exact ⟨rest, .string rest known, closes⟩
  split
  · rename_i starts
    refine Or.inr ⟨⟨contexts, trivial⟩, ?_⟩
    rintro _ ⟨digits, rest, rfl, continues, closes⟩
    have token : relaxed.number (ch :: digits) := ⟨ch, digits, rfl, starts, continues⟩
    exact ⟨rest, .number rest token, closes⟩
  split
  · refine Or.inr ⟨⟨contexts, trivial⟩, ?_⟩
    rintro _ ⟨tail, rest, rfl, known, closes⟩
    exact ⟨rest, .literal rest known, closes⟩
  split
  · refine Or.inr ⟨⟨contexts, trivial⟩, ?_⟩
    rintro _ ⟨tail, rest, rfl, known, closes⟩
    exact ⟨rest, .literal rest known, closes⟩
  · exact Or.inl rfl

theorem contextOf_injective {keyed' : Bool} (same : contextOf keyed = contextOf keyed') : keyed = keyed' := by
  cases keyed <;> cases keyed' <;> first | rfl | cases same

/-- Behind an entry the series ends or goes on. -/
theorem Closes.series {after : List Char}
    (entry : ∀ rest, Spaces relaxed.space after rest → JsonForm relaxed (.entry keyed) text rest)
    (closes : Closes (contextOf keyed :: stack) after) : SeriesThen (contextOf keyed :: stack) text := by
  generalize same : contextOf keyed :: stack = contexts at closes
  cases closes with
  | outside => cases same
  | close keyed' spaces closes =>
      obtain ⟨context, rfl⟩ := List.cons.inj same
      obtain rfl := contextOf_injective context
      exact ⟨keyed, stack, _, rfl, .last false (entry _ spaces), closes⟩
  | next keyed' spaces series closes =>
      obtain ⟨context, rfl⟩ := List.cons.inj same
      obtain rfl := contextOf_injective context
      exact ⟨keyed, stack, _, rfl, .more false (entry _ spaces) series, closes⟩

section Space

variable (space : isWhitespace ch = true)
include space

theorem spaces_cons (spaces : Spaces relaxed.space text rest) : Spaces relaxed.space (ch :: text) rest :=
  .skip space spaces

theorem closes_cons (closes : Closes stack text) : Closes stack (ch :: text) := by
  cases closes with
  | outside spaces => exact .outside (spaces_cons space spaces)
  | close keyed spaces closes => exact .close keyed (spaces_cons space spaces) closes
  | next keyed spaces series closes => exact .next keyed (spaces_cons space spaces) series closes

theorem entry_cons (form : JsonForm relaxed (.entry keyed) text rest) :
    JsonForm relaxed (.entry keyed) (ch :: text) rest := by
  cases form with
  | element front value back => exact .element (spaces_cons space front) value back
  | pair front key colon value => exact .pair (spaces_cons space front) key colon value
  | bare front key back => exact .bare (spaces_cons space front) key back

theorem seriesThen_cons (series : SeriesThen stack text) : SeriesThen stack (ch :: text) := by
  obtain ⟨keyed, below, rest, same, form, closes⟩ := series
  refine ⟨keyed, below, rest, same, ?_, closes⟩
  cases form with
  | none first spaces => exact .none first (spaces_cons space spaces)
  | last _ entry => exact .last _ (entry_cons space entry)
  | more _ entry series => exact .more _ (entry_cons space entry) series

/-- A space in front of a text does not change what a waiting machine asks for. -/
theorem asks_cons (skips : skipsSpaces machine.state = true) (asks : Asks machine text) :
    Asks machine (ch :: text) := by
  rw [Asks] at asks ⊢
  cases state : machine.state <;> simp only [state, skipsSpaces, Bool.false_eq_true] at skips asks ⊢
  · obtain ⟨value, spaces, known⟩ := asks
    exact ⟨value, spaces_cons space spaces, known⟩
  · split at asks <;> rename_i flag <;> simp only [flag, if_true]
    · exact closes_cons space asks
    · exact seriesThen_cons space asks
  · obtain ⟨colon, value, spaces, known⟩ := asks
    exact ⟨colon, value, spaces_cons space spaces, known⟩
  · obtain ⟨value, spaces, known⟩ := asks
    exact ⟨value, spaces_cons space spaces, known⟩
  · split at asks <;> rename_i flag <;> simp only [flag, if_true]
    · exact closes_cons space asks
    · exact seriesThen_cons space asks
  · exact closes_cons space asks

end Space

/-- A closing bracket ends the context. -/
theorem closeContext_goesOn (contexts : Contexts machine.contextStack)
    (stacked : machine.contextStack = contextOf keyed :: stack)
    (wants : ∀ rest, Closes stack rest → wanted rest) : GoesOn machine.closeContext wanted := by
  apply (closeContext_after stacked).goesOn _ wants
  rw [stacked] at contexts
  exact fun context member => contexts context (mem_cons_of_mem _ member)

theorem feedInObject_goesOn (shaped : Shaped machine) (state : machine.state = .inObject)
    (space : isWhitespace ch = false) : GoesOn (machine.feedInObject ch) fun rest => Asks machine (ch :: rest) := by
  obtain ⟨contexts, fits⟩ := shaped
  rw [state] at fits
  obtain ⟨below, stacked⟩ := fits
  rw [feedInObject, if_neg (by rw [space]; decide)]
  split
  · rename_i flag
    simp only [Asks, state, flag, if_true]
    split
    · rename_i same
      subst same
      refine Or.inr ⟨⟨contexts, ⟨below, stacked⟩⟩, fun rest asks => ?_⟩
      simp only [Asks, Bool.false_eq_true, if_false] at asks
      obtain ⟨keyed, below, rest, same, series, closes⟩ := asks
      rw [same]
      exact .next keyed (.done _) series closes
    · split
      · rename_i same
        subst same
        apply closeContext_goesOn contexts stacked
        intro rest closes
        rw [stacked]
        exact .close true (.done _) closes
      · exact Or.inl rfl
  · rename_i flag
    simp only [Asks, state, flag]
    split
    · rename_i same
      subst same
      refine Or.inr ⟨⟨contexts, ⟨below, stacked⟩⟩, ?_⟩
      rintro _ ⟨key, rest, rfl, ⟨plain, colon, value, spaces, spaces', known⟩ | ⟨bare, closes⟩⟩
      · obtain ⟨after, value, closes⟩ := known
        rw [stacked] at closes ⊢
        apply closes.series
        intro rest back
        exact .pair (.done _) plain spaces (.element spaces' value back)
      · rw [stacked] at closes ⊢
        apply closes.series
        intro rest back
        exact .bare (.done _) bare back
    · split
      · rename_i same
        subst same
        apply closeContext_goesOn contexts stacked
        intro rest closes
        exact ⟨true, below, rest, stacked, .none (Or.inr trivial) (.done _), closes⟩
      · exact Or.inl rfl

theorem feedInArray_goesOn (shaped : Shaped machine) (state : machine.state = .inArray)
    (space : isWhitespace ch = false) : GoesOn (machine.feedInArray ch) fun rest => Asks machine (ch :: rest) := by
  obtain ⟨contexts, fits⟩ := shaped
  rw [state] at fits
  obtain ⟨below, stacked⟩ := fits
  rw [feedInArray, if_neg (by rw [space]; decide)]
  split
  · rename_i flag
    simp only [Asks, state, flag, if_true]
    split
    · rename_i same
      subst same
      refine Or.inr ⟨⟨contexts, ⟨below, stacked⟩⟩, fun rest asks => ?_⟩
      simp only [Asks, Bool.false_eq_true, if_false] at asks
      obtain ⟨keyed, below, rest, same, series, closes⟩ := asks
      rw [same]
      exact .next keyed (.done _) series closes
    · split
      · rename_i same
        subst same
        apply closeContext_goesOn contexts stacked
        intro rest closes
        rw [stacked]
        exact .close false (.done _) closes
      · exact Or.inl rfl
  · rename_i flag
    simp only [Asks, state, flag]
    split
    · rename_i same
      subst same
      apply closeContext_goesOn contexts stacked
      intro rest closes
      exact ⟨false, below, rest, stacked, .none (Or.inr trivial) (.done _), closes⟩
    · rcases startValue_goesOn contexts with failed | ⟨shaped, asks⟩
      · exact Or.inl failed
      · refine Or.inr ⟨shaped, fun rest known => ?_⟩
        obtain ⟨after, value, closes⟩ := asks rest known
        rw [stacked] at closes ⊢
        apply closes.series
        intro rest back
        exact .element (.done _) value back

/-- What a machine with a part of a keyword asks for. -/
def KeywordThen (machine : JsonConstraint) (text : List Char) : Prop :=
  ∃ tail rest, text = tail ++ rest ∧ machine.keywordBuf ++ tail ∈ jsonLiterals ∧
    Closes machine.contextStack rest

variable {keywords : List (List Char)}

theorem Spells.asks (spells : Spells machine keywords) : Asks machine = KeywordThen machine := by
  funext text
  rcases spells with ⟨state, _⟩ | ⟨state, _⟩ <;> simp only [Asks, state, KeywordThen]

variable (shaped : Shaped machine)
include shaped

theorem feedKeyword_goesOn (spells : Spells machine keywords) :
    GoesOn (machine.feedKeyword keywords ch) fun rest => Asks machine (ch :: rest) := by
  have literals : ∀ word ∈ keywords, word ∈ jsonLiterals := by
    rcases spells with ⟨_, rfl⟩ | ⟨_, rfl⟩ <;> decide
  rw [spells.asks, feedKeyword]
  split
  · rename_i known
    have after : After machine.contextStack
        ({ machine with keywordBuf := [] } : JsonConstraint).finishValue := ⟨rfl, rfl, fun _ => rfl⟩
    apply after.goesOn shaped.contexts
    exact fun rest closes => ⟨[ch], rest, rfl, literals _ known, closes⟩
  · split
    · have pushed : Spells { machine with keywordBuf := machine.keywordBuf ++ [ch] } keywords := spells
      refine Or.inr ⟨⟨shaped.contexts, shaped.fits⟩, fun rest asks => ?_⟩
      rw [pushed.asks] at asks
      obtain ⟨tail, rest, rfl, known, closes⟩ := asks
      refine ⟨ch :: tail, rest, rfl, ?_, closes⟩
      rw [append_cons]
      exact known
    · exact Or.inl rfl

theorem feedInString_goesOn (state : machine.state = .inString) :
    GoesOn (machine.feedSettled ch) fun rest => Asks machine (ch :: rest) := by
  simp only [feedSettled, state, Asks]
  split
  · rename_i same
    subst same
    apply (finishString_after machine shaped.contexts).goesOn shaped.contexts
    exact fun rest closes => ⟨[], rest, rfl, .nil, closes⟩
  · rename_i quote
    split
    · rename_i same
      subst same
      refine Or.inr ⟨⟨shaped.contexts, trivial⟩, ?_⟩
      rintro _ ⟨c, _, rfl, body, rest, rfl, known, closes⟩
      exact ⟨'\\' :: c :: body, rest, rfl, .escape c known, closes⟩
    · rename_i backslash
      refine Or.inr ⟨shaped, fun rest asks => ?_⟩
      simp only [Asks, state] at asks
      obtain ⟨body, rest, rfl, known, closes⟩ := asks
      exact ⟨ch :: body, rest, rfl, .plain quote backslash known, closes⟩

theorem feedInObjectKey_goesOn (state : machine.state = .inObjectKey) :
    GoesOn (machine.feedSettled ch) fun rest => Asks machine (ch :: rest) := by
  have fits := shaped.fits
  rw [state] at fits
  simp only [feedSettled, state, Asks]
  split
  · rename_i same
    subst same
    refine Or.inr ⟨⟨shaped.contexts, fits⟩, fun rest asks => ?_⟩
    exact ⟨[], rest, rfl, Or.inl ⟨fun _ member => absurd member not_mem_nil, asks⟩⟩
  · rename_i quote
    split
    · rename_i same
      subst same
      refine Or.inr ⟨⟨shaped.contexts, trivial⟩, ?_⟩
      rintro _ ⟨c, _, rfl, body, rest, rfl, known, closes⟩
      exact ⟨'\\' :: c :: body, rest, rfl, Or.inr ⟨⟨.escape c known, mem_cons_self⟩, closes⟩⟩
    · rename_i backslash
      refine Or.inr ⟨shaped, fun rest asks => ?_⟩
      simp only [Asks, state] at asks
      obtain ⟨key, rest, rfl, ⟨plain, asks⟩ | ⟨⟨known, escaped⟩, closes⟩⟩ := asks
      · refine ⟨ch :: key, rest, rfl, Or.inl ⟨fun c member => ?_, asks⟩⟩
        rcases mem_cons.mp member with rfl | later
        · exact ⟨quote, backslash⟩
        · exact plain c later
      · refine ⟨ch :: key, rest, rfl, Or.inr ⟨⟨.plain quote backslash known, ?_⟩, closes⟩⟩
        exact mem_cons_of_mem _ escaped

/-- One character outside a number leads to a machine that asks for the rest. The cases are the states. -/
theorem feedSettled_goesOn (settled : machine.state ≠ .inNumber) :
    GoesOn (machine.feedSettled ch) fun rest => Asks machine (ch :: rest) := by
  have fits := shaped.fits
  by_cases blank : skipsSpaces machine.state = true ∧ isWhitespace ch = true
  · have same := feedChar_space blank.1 blank.2
    rw [feedChar_settled settled] at same
    rw [same]
    exact Or.inr ⟨shaped, fun rest asks => asks_cons blank.2 blank.1 asks⟩
  · have space (skips : skipsSpaces machine.state = true) : isWhitespace ch = false := by
      cases white : isWhitespace ch with
      | false => rfl
      | true => exact absurd ⟨skips, white⟩ blank
    cases state : machine.state with
    | start =>
        simp only [feedSettled, state, Asks, space (by rw [state]; rfl), Bool.false_eq_true, if_false]
        rcases startValue_goesOn shaped.contexts with failed | ⟨shaped, asks⟩
        · exact Or.inl failed
        · exact Or.inr ⟨shaped, fun rest known => ⟨_, .done _, asks rest known⟩⟩
    | inObject =>
        simp only [feedSettled, state]
        exact feedInObject_goesOn shaped state (space (by rw [state]; rfl))
    | inObjectKey => exact feedInObjectKey_goesOn shaped state
    | afterKey =>
        rw [state] at fits
        simp only [feedSettled, state, Asks, space (by rw [state]; rfl), Bool.false_eq_true, if_false]
        split
        · rename_i same
          subst same
          refine Or.inr ⟨⟨shaped.contexts, fits⟩, ?_⟩
          rintro rest ⟨value, spaces, known⟩
          exact ⟨rest, value, .done _, spaces, known⟩
        · exact Or.inl rfl
    | inObjectValue =>
        simp only [feedSettled, state, Asks, space (by rw [state]; rfl), Bool.false_eq_true, if_false]
        rcases startValue_goesOn shaped.contexts with failed | ⟨shaped, asks⟩
        · exact Or.inl failed
        · exact Or.inr ⟨shaped, fun rest known => ⟨_, .done _, asks rest known⟩⟩
    | inArray =>
        simp only [feedSettled, state]
        exact feedInArray_goesOn shaped state (space (by rw [state]; rfl))
    | inArrayValue =>
        rw [state] at fits
        exact absurd fits not_false
    | inString => exact feedInString_goesOn shaped state
    | inStringEscape =>
        simp only [feedSettled, state, Asks]
        refine Or.inr ⟨⟨shaped.contexts, trivial⟩, fun rest asks => ?_⟩
        exact ⟨ch, rest, rfl, asks⟩
    | inNumber => exact absurd state settled
    | inBool =>
        have spells : Spells machine _ := Or.inl ⟨state, rfl⟩
        simp only [feedSettled, state]
        exact feedKeyword_goesOn shaped spells
    | inNull =>
        have spells : Spells machine _ := Or.inr ⟨state, rfl⟩
        simp only [feedSettled, state]
        exact feedKeyword_goesOn shaped spells
    | complete =>
        simp only [feedSettled, state, space (by rw [state]; rfl), Bool.false_eq_true, if_false]
        exact Or.inl rfl
    | error =>
        simp only [feedSettled, state]
        exact Or.inl state

omit shaped

/-- One character leads to a machine that asks for the rest. -/
theorem feedChar_goesOn (ch : Char) (shaped : Shaped machine) :
    GoesOn (machine.feedChar ch) fun rest => Asks machine (ch :: rest) := by
  by_cases number : machine.state = .inNumber
  · rw [feedChar, if_pos number]
    simp only [Asks, number]
    split
    · rename_i continues
      refine Or.inr ⟨⟨shaped.contexts, trivial⟩, fun rest asks => ?_⟩
      simp only [Asks] at asks
      obtain ⟨digits, rest, rfl, more, closes⟩ := asks
      refine ⟨ch :: digits, rest, rfl, fun c member => ?_, closes⟩
      rcases mem_cons.mp member with rfl | later
      · exact continues
      · exact more c later
    · have after : After machine.contextStack machine.finishValue := ⟨rfl, rfl, fun _ => rfl⟩
      have settled : machine.finishValue.state ≠ .inNumber := stateAfter_ne_inNumber _
      rcases feedSettled_goesOn (after.shaped shaped.contexts) settled with failed | ⟨shaped', asks⟩
      · exact Or.inl failed
      · refine Or.inr ⟨shaped', fun rest known => ?_⟩
        have closes := after.asks shaped.contexts (asks rest known)
        exact ⟨[], ch :: rest, rfl, fun _ member => absurd member not_mem_nil, closes⟩
  · rw [feedChar_settled number]
    exact feedSettled_goesOn shaped number

theorem closes_nil (contexts : Contexts stack) (done : stateAfter stack = .complete) : Closes stack [] := by
  cases stack with
  | nil => exact .outside (.done [])
  | cons context below =>
      obtain ⟨keyed, rfl⟩ := contexts context mem_cons_self
      rw [stateAfter_contextOf] at done
      cases keyed <;> cases done

/-- No keyword ends with a space. -/
theorem feedKeyword_space (spells : Spells machine keywords) :
    (machine.feedKeyword keywords ' ').state ≠ .complete := by
  have last : ∀ word ∈ keywords, word.getLast? ≠ some ' ' := by
    rcases spells with ⟨_, rfl⟩ | ⟨_, rfl⟩ <;> decide
  rw [feedKeyword]
  split
  · rename_i known
    exact absurd getLast?_concat (last _ known)
  · split
    · rcases spells with ⟨state, _⟩ | ⟨state, _⟩ <;> simp [state]
    · simp [fail]

/-- A machine that is complete after one space asks for nothing. -/
theorem asks_nil (shaped : Shaped machine) (done : (machine.feedChar ' ').state = .complete) : Asks machine [] := by
  by_cases number : machine.state = .inNumber
  · have after : After machine.contextStack machine.finishValue := ⟨rfl, rfl, fun _ => rfl⟩
    have same : machine.feedChar ' ' = machine.finishValue := by
      rw [feedChar, if_pos number, if_neg (by decide), ← feedChar_settled (stateAfter_ne_inNumber _)]
      exact feedChar_space (after.skips shaped.contexts) rfl
    rw [same] at done
    simp only [Asks, number]
    exact ⟨[], [], rfl, fun _ member => absurd member not_mem_nil, closes_nil shaped.contexts done⟩
  · by_cases skips : skipsSpaces machine.state = true
    · rw [feedChar_space skips rfl] at done
      have fits := shaped.fits
      rw [done] at fits
      have outside : machine.contextStack = [] := fits
      simp only [Asks, done, outside]
      exact .outside (.done [])
    · exfalso
      rw [feedChar_settled number] at done
      cases state : machine.state <;> simp only [state, skipsSpaces, not_true_eq_false] at skips number
      · simp [feedSettled, state] at done
      · simp [feedSettled, state] at done
      · simp [feedSettled, state] at done
      · simp only [feedSettled, state] at done
        exact feedKeyword_space (Or.inl ⟨state, rfl⟩) done
      · simp only [feedSettled, state] at done
        exact feedKeyword_space (Or.inr ⟨state, rfl⟩) done
      · simp [feedSettled, state] at done

/-- A machine asks for every text that it accepts. The induction is on the text. -/
theorem asks_of_accepts (shaped : Shaped machine) (accepted : machine.accepts text = true) : Asks machine text := by
  induction text generalizing machine with
  | nil =>
      rw [accepts_nil, decide_eq_true_eq] at accepted
      exact asks_nil shaped accepted
  | cons ch text ih =>
      rw [accepts_cons] at accepted
      rcases feedChar_goesOn ch shaped with failed | ⟨shaped', asks⟩
      · rw [accepts_error failed] at accepted
        cases accepted
      · exact asks text (ih shaped' accepted)

/-- The machine accepts the texts of the relaxed dialect and no others. -/
theorem accepts_iff_relaxed (text : List Char) : new.accepts text = true ↔ JsonText relaxed text := by
  have contexts : Contexts [] := fun _ member => absurd member not_mem_nil
  constructor
  · intro accepted
    obtain ⟨value, front, rest, form, closes⟩ := asks_of_accepts new_shaped accepted
    cases closes with
    | outside spaces => exact .element front form spaces
  · intro form
    have quiet : Quiet [] := fun _ wrong => nomatch wrong
    obtain ⟨next, after, same⟩ := reads form new [] ⟨rfl, Or.inl rfl⟩ contexts quiet
    rw [same, accepts_nil, feedChar_space (after.skips contexts) rfl, after.state]
    rfl

end Pictor.JsonConstraint

namespace Pictor.JsonConstraint
open List

/-- JSON without escape sequences in the keys of objects. -/
def plainKeys : JsonDialect :=
  { JsonDialect.rfc8259 with key := fun key => JsonBody key ∧ '\\' ∉ key }

theorem JsonBody_relaxed (known : JsonBody body) : RelaxedBody body := by
  induction known with
  | nil => exact .nil
  | plain _ quote backslash _ ih => exact .plain quote backslash ih
  | escape _ _ ih => exact .escape _ ih
  | @unicode a b c d _ ha hb hc hd _ ih =>
      have hex {c : Char} (digit : isHexDigit c) : c ≠ '"' ∧ c ≠ '\\' := by
        constructor <;> rintro rfl <;> revert digit <;> simp [isHexDigit, isDigit]
      refine .escape 'u' (.plain (hex ha).1 (hex ha).2 (.plain (hex hb).1 (hex hb).2 ?_))
      exact .plain (hex hc).1 (hex hc).2 (.plain (hex hd).1 (hex hd).2 ih)

/-- The characters of a JSON number continue a number of the machine. -/
theorem digits_continue (digits : Digits text) : ∀ c ∈ text, continuesNumber c = true := by
  intro c member
  have digit := digits.2 c member
  simp [continuesNumber, digit.1, digit.2]

theorem fraction_continue (fraction : FractionPart text) : ∀ c ∈ text, continuesNumber c = true := by
  rcases fraction with rfl | ⟨digits, rfl, known⟩
  · exact fun c member => absurd member not_mem_nil
  · intro c member
    rcases mem_cons.mp member with rfl | later
    · rfl
    · exact digits_continue known c later

theorem exponent_continue (exponent : ExponentPart text) : ∀ c ∈ text, continuesNumber c = true := by
  rcases exponent with rfl | ⟨mark, sign, digits, rfl, marked, signed, known⟩
  · exact fun c member => absurd member not_mem_nil
  · intro c member
    rcases mem_cons.mp member with rfl | member
    · rcases marked with rfl | rfl <;> rfl
    · rcases mem_append.mp member with front | later
      · rcases signed with rfl | rfl | rfl
        · cases front
        · rw [mem_singleton.mp front]
          rfl
        · rw [mem_singleton.mp front]
          rfl
      · exact digits_continue known c later

theorem JsonNumber_relaxed {token : List Char} (known : JsonNumber token) : relaxed.number token := by
  obtain ⟨sign, integer, fraction, exponent, rfl, signed, whole, part, power⟩ := known
  have digits : Digits integer := by
    rcases whole with rfl | ⟨digits, _⟩
    · exact .singleton ⟨by decide, by decide⟩
    · exact digits
  have later : ∀ c ∈ fraction ++ exponent, continuesNumber c = true := by
    intro c member
    exact (mem_append.mp member).elim (fraction_continue part c) (exponent_continue power c)
  have all : ∀ c ∈ integer ++ (fraction ++ exponent), continuesNumber c = true := by
    intro c member
    exact (mem_append.mp member).elim (digits_continue digits c) (later c)
  rcases signed with rfl | rfl
  · cases integer with
    | nil => exact absurd rfl digits.1
    | cons first tail =>
        have digit := digits.2 first mem_cons_self
        refine ⟨first, tail ++ (fraction ++ exponent), rfl, ?_, fun c member => ?_⟩
        · simp [startsNumber, digit.1, digit.2]
        · exact all c (mem_cons_of_mem _ member)
  · exact ⟨'-', integer ++ (fraction ++ exponent), rfl, rfl, all⟩

theorem RelaxedBody.no_quote (known : RelaxedBody body) (plain : '\\' ∉ body) : relaxed.key body := by
  induction known with
  | nil => exact fun c member => absurd member not_mem_nil
  | plain quote backslash _ ih =>
      intro c member
      rcases mem_cons.mp member with rfl | later
      · exact ⟨quote, backslash⟩
      · exact ih (fun wrong => plain (mem_cons_of_mem _ wrong)) c later
  | escape c _ _ => exact absurd mem_cons_self plain

theorem plainKeys_within_relaxed : plainKeys.Within relaxed where
  space c space := by
    rcases space with rfl | rfl | rfl | rfl <;> rfl
  number _ := JsonNumber_relaxed
  body _ := JsonBody_relaxed
  key _ known := (JsonBody_relaxed known.1).no_quote known.2
  bareKey _ := False.elim
  trailingComma := False.elim

variable {machine : JsonConstraint} {stack text rest : List Char} {part : JsonPart} {body : List Char}

/-- The machine refuses every text that goes on in this way. -/
def Refuses (part : JsonPart) (text : List Char) : Prop :=
  match part with
  | .value | .entry false => ∀ machine stack, Before stack machine → Contexts stack →
      machine.accepts text = false
  | .entry true => ∀ machine stack, Open true stack machine → Contexts stack → machine.accepts text = false
  | .series keyed _ => ∀ machine stack, Open keyed stack machine → Contexts stack →
      machine.accepts text = false

theorem Refuses.entry {keyed : Bool} (refuses : Refuses (.entry keyed) text)
    (opened : Open keyed stack machine) (contexts : Contexts stack) : machine.accepts text = false := by
  cases keyed with
  | false => exact refuses machine _ opened.before (contexts.cons false)
  | true => exact refuses machine stack opened contexts

/-- A colon behind an entry is an error. -/
theorem feedChar_colon_after (after : After stack machine) (same : stack = contextOf true :: text) :
    (machine.feedChar ':').state = .error := by
  subst same
  have state := after.state
  have flag := after.flag (cons_ne_nil _ _)
  rw [stateAfter_contextOf, if_pos rfl] at state
  rw [feedChar_settled (by rw [state]; decide), feedSettled, state]
  simp [feedInObject, flag, isWhitespace, fail]

/-- A key with a backslash ends its entry, so the colon behind it is an error. -/
theorem refuses_escapedKey {key after value : List Char}
    (front : Spaces relaxed.space text ('"' :: (key ++ '"' :: after))) (bare : relaxed.bareKey key)
    (colon : Spaces relaxed.space after (':' :: value)) : Refuses (.entry true) text := by
  intro machine stack opened contexts
  have stacked : Contexts machine.contextStack := opened.contexts contexts
  have finished := finishString_after { machine with state := .inString } stacked
  rw [accepts_spaces opened.skips front, accepts_cons, feedChar_quote opened, accepts_bareKey rfl bare,
    finished.accepts_spaces stacked colon, accepts_cons]
  exact accepts_error (feedChar_colon_after finished opened.contextStack)

/-- A part of a JSON text has plain keys, or the machine refuses it. The induction is on the grammar. -/
theorem plainKeys_or_refuses (form : JsonForm .rfc8259 part text rest) :
    JsonForm plainKeys part text rest ∨ Refuses part text := by
  have spaces {text rest : List Char} (known : Spaces plainKeys.space text rest) :
      Spaces relaxed.space text rest := known.mono plainKeys_within_relaxed.space
  induction form with
  | literal rest known => exact Or.inl (.literal rest known)
  | number rest known => exact Or.inl (.number rest known)
  | string rest known => exact Or.inl (.string rest known)
  | array _ ih =>
      apply ih.imp JsonForm.array
      intro refuses machine stack before contexts
      rw [accepts_cons]
      exact refuses _ stack (feedChar_open false before) contexts
  | object _ ih =>
      apply ih.imp JsonForm.object
      intro refuses machine stack before contexts
      rw [accepts_cons]
      exact refuses _ stack (feedChar_open true before) contexts
  | element front _ back ih =>
      apply ih.imp fun value => (.element front value back : JsonForm plainKeys _ _ _)
      intro refuses machine stack before contexts
      rw [accepts_spaces before.skips (spaces front)]
      exact refuses machine stack before contexts
  | @pair text key after value rest front known colon _ ih =>
      by_cases escaped : '\\' ∈ key
      · have bare : relaxed.bareKey key := ⟨JsonBody_relaxed known, escaped⟩
        exact Or.inr (refuses_escapedKey (spaces front) bare (spaces colon))
      · have plainKey : plainKeys.key key := ⟨known, escaped⟩
        apply ih.imp fun value => (.pair front plainKey colon value : JsonForm plainKeys _ _ _)
        intro refuses machine stack opened contexts
        have plain : relaxed.key key := (JsonBody_relaxed known).no_quote escaped
        have before : Before ('o' :: stack)
            (({ machine with state := .afterKey } : JsonConstraint).feedChar ':') :=
          ⟨opened.contextStack, Or.inr (Or.inl rfl)⟩
        rw [accepts_spaces opened.skips (spaces front), accepts_cons, feedChar_quote opened,
          accepts_key rfl plain, accepts_spaces rfl (spaces colon), accepts_cons]
        exact refuses _ _ before (contexts.cons true)
  | bare _ known => exact False.elim known
  | none first blank => exact Or.inl (.none first blank)
  | last fresh _ ih =>
      apply ih.imp (JsonForm.last fresh)
      exact fun refuses machine stack opened contexts => refuses.entry opened contexts
  | @more keyed fresh text middle rest _ _ ih ih' =>
      rcases ih with entry | refuses
      · apply ih'.imp (JsonForm.more fresh entry)
        -- The machine reads the first entry and the comma, and it refuses the others.
        intro refuses machine stack opened contexts
        have reads := (reads (entry.mono plainKeys_within_relaxed)).entry opened contexts
        obtain ⟨next, after, same⟩ := reads (by rintro c ⟨⟩; decide)
        rw [same, accepts_cons]
        exact refuses _ stack (feedChar_comma after) contexts
      · exact Or.inr fun machine stack opened contexts => refuses.entry opened contexts

/-- An accepted JSON text has plain keys. -/
theorem plainKeys_of_accepts (accepted : new.accepts text = true) (json : JsonText .rfc8259 text) :
    JsonText plainKeys text := by
  rcases plainKeys_or_refuses json with plain | refuses
  · exact plain
  · have contexts : Contexts [] := fun _ member => absurd member not_mem_nil
    rw [refuses new [] ⟨rfl, Or.inl rfl⟩ contexts] at accepted
    cases accepted

/-- The machine decides a text exactly when the keys of a JSON text have no escape sequence and a text of
the relaxed dialect is JSON. -/
theorem accepts_iff_json (text : List Char) : (new.accepts text = true ↔ JsonText .rfc8259 text) ↔
      (JsonText .rfc8259 text → JsonText plainKeys text) ∧ (JsonText relaxed text → JsonText .rfc8259 text) := by
  rw [accepts_iff_relaxed]
  constructor
  · intro decides
    refine ⟨fun json => ?_, decides.mp⟩
    exact plainKeys_of_accepts ((accepts_iff_relaxed text).mpr (decides.mpr json)) json
  · rintro ⟨plain, strict⟩
    exact ⟨strict, fun json => (plain json).mono plainKeys_within_relaxed⟩

/-- The keys with an escape sequence and the last comma of an array are decided wrongly. -/
example : new.accepts ['[', '1', ',', ']'] = true := by decide

/-- The object with the key backslash n is a JSON text, and the machine refuses it. -/
theorem escapedKey_refused : ¬∀ text, new.accepts text = true ↔ JsonText .rfc8259 text := by
  intro decides
  have key : JsonBody ['\\', 'n'] := .escape (by decide) .nil
  have one : JsonNumber ['1'] := by
    refine ⟨[], ['1'], [], [], rfl, Or.inl rfl, Or.inr ⟨.singleton ⟨by decide, by decide⟩, by decide⟩, Or.inl rfl,
      Or.inl rfl⟩
  have number : JsonForm .rfc8259 .value (['1'] ++ ['}']) ['}'] := .number ['}'] one
  have value : JsonForm .rfc8259 (.entry false) ['1', '}'] ['}'] := .element (.done _) number (.done _)
  have entry : JsonForm .rfc8259 (.entry true) ['"', '\\', 'n', '"', ':', '1', '}'] ['}'] :=
    .pair (.done _) key (.done _) value
  have json : JsonText .rfc8259 ['{', '"', '\\', 'n', '"', ':', '1', '}'] :=
    .element (.done _) (.object (.last true entry)) (.done _)
  have accepted := (decides _).mpr json
  revert accepted
  decide

end Pictor.JsonConstraint
