import Pictor.Construction.Decoding.JsonConstraint
import Pictor.Library.JsonValue

namespace Pictor.JsonConstraint
open List

/-- The characters and then one space are accepted, and the machine is complete at the end. -/
def accepts (machine : JsonConstraint) : List Char → Bool
  | [] =>
      let stepped := machine.advance (' ').val
      stepped.1 && stepped.2.isComplete
  | ch :: rest =>
      let stepped := machine.advance ch.val
      stepped.1 && stepped.2.accepts rest

variable {machine next : JsonConstraint} {ch : Char} {text rest : List Char} {stack : List Char}

theorem feedChar_error (failed : machine.state = .error) : machine.feedChar ch = machine := by
  rw [feedChar, if_neg (by rw [failed]; decide), feedSettled, failed]

theorem advance_val (alive : machine.state ≠ .error) :
    machine.advance ch.val = (decide ((machine.feedChar ch).state ≠ .error), machine.feedChar ch) := by
  rw [advance, if_neg alive, dif_pos ch.valid]

/-- A machine in the error state accepts nothing. -/
theorem accepts_error (failed : machine.state = .error) : machine.accepts text = false := by
  cases text with
  | nil =>
      rw [accepts, advance, if_pos failed]
      rfl
  | cons ch rest =>
      rw [accepts, advance, if_pos failed]
      rfl

/-- One character is one step of the machine. -/
theorem accepts_cons : machine.accepts (ch :: rest) = (machine.feedChar ch).accepts rest := by
  by_cases failed : machine.state = .error
  · rw [accepts_error failed, feedChar_error failed, accepts_error failed]
  · rw [accepts, advance_val failed]
    by_cases failed' : (machine.feedChar ch).state = .error
    · simp only [accepts_error failed', Bool.and_false]
    · simp only [failed', ne_eq, not_false_eq_true, decide_true, Bool.true_and]

/-- The last space must lead to the complete state. -/
theorem accepts_nil : machine.accepts [] = decide ((machine.feedChar ' ').state = .complete) := by
  by_cases failed : machine.state = .error
  · rw [accepts_error failed, feedChar_error failed, failed]
    rfl
  · rw [accepts, advance_val failed, isComplete]
    cases (machine.feedChar ' ').state <;> rfl

/-- A string of the machine ends at the first quote without a backslash. -/
inductive RelaxedBody : List Char → Prop
  | nil : RelaxedBody []
  | plain {c : Char} {body : List Char} : c ≠ '"' → c ≠ '\\' → RelaxedBody body → RelaxedBody (c :: body)
  | escape (c : Char) {body : List Char} : RelaxedBody body → RelaxedBody ('\\' :: c :: body)

/-- The rules that the machine checks. A key with a backslash has no value. -/
def relaxed : JsonDialect where
  space c := isWhitespace c = true
  number token := ∃ first digits, token = first :: digits ∧ startsNumber first = true ∧
    ∀ c ∈ digits, continuesNumber c = true
  body := RelaxedBody
  key key := ∀ c ∈ key, c ≠ '"' ∧ c ≠ '\\'
  bareKey key := RelaxedBody key ∧ '\\' ∈ key
  trailingComma := True

/-- The context of an object is o, and that of an array is a. -/
def contextOf (keyed : Bool) : Char := if keyed then 'o' else 'a'

def closeOf (keyed : Bool) : Char := if keyed then '}' else ']'

/-- The machine is behind a value. -/
structure After (stack : List Char) (machine : JsonConstraint) : Prop where
  contextStack : machine.contextStack = stack
  state : machine.state = stateAfter stack
  flag : stack ≠ [] → machine.expectingCommaOrClose = true

/-- The machine is in front of a value. -/
structure Before (stack : List Char) (machine : JsonConstraint) : Prop where
  contextStack : machine.contextStack = stack
  state : machine.state = .start ∨ machine.state = .inObjectValue ∨
    (machine.state = .inArray ∧ machine.expectingCommaOrClose = false)

/-- The machine is in front of an entry of an object or an array. -/
structure Open (keyed : Bool) (stack : List Char) (machine : JsonConstraint) : Prop where
  contextStack : machine.contextStack = contextOf keyed :: stack
  state : machine.state = if keyed then .inObject else .inArray
  flag : machine.expectingCommaOrClose = false

/-- The contexts of a run are objects and arrays. -/
def Contexts (stack : List Char) : Prop := ∀ context ∈ stack, ∃ keyed, context = contextOf keyed

/-- The text does not go on with a character of a number. -/
def Quiet (text : List Char) : Prop := ∀ c ∈ text.head?, continuesNumber c = false

theorem stateAfter_contextOf (keyed : Bool) (stack : List Char) :
    stateAfter (contextOf keyed :: stack) = if keyed then .inObject else .inArray := by
  cases keyed <;> rfl

theorem stateAfter_ne_inNumber (stack : List Char) : stateAfter stack ≠ .inNumber := by
  rw [stateAfter.eq_def]
  split <;> decide

theorem feedChar_settled (settled : machine.state ≠ .inNumber) :
    machine.feedChar ch = machine.feedSettled ch := if_neg settled

/-- The states that skip spaces. -/
def skipsSpaces : JsonParseState → Bool
  | .start | .inObject | .afterKey | .inObjectValue | .inArray | .inArrayValue | .complete => true
  | _ => false

theorem feedChar_space (skips : skipsSpaces machine.state = true) (space : isWhitespace ch = true) :
    machine.feedChar ch = machine := by
  have settled : machine.state ≠ .inNumber := by
    intro same
    rw [same] at skips
    cases skips
  rw [feedChar_settled settled, feedSettled]
  cases state : machine.state <;> simp only [state, skipsSpaces, Bool.false_eq_true] at skips <;>
    simp only [feedInObject, feedInArray, feedInArrayValue, space, if_true]

/-- Spaces do not change a machine that skips them. -/
theorem accepts_spaces (skips : skipsSpaces machine.state = true)
    (spaces : Spaces relaxed.space text rest) : machine.accepts text = machine.accepts rest := by
  induction spaces with
  | done => rfl
  | skip space _ ih => rw [accepts_cons, feedChar_space skips space, ih]

theorem After.skips (after : After stack machine) (contexts : Contexts stack) : skipsSpaces machine.state = true := by
  rw [after.state]
  cases stack with
  | nil => rfl
  | cons context stack =>
      obtain ⟨keyed, rfl⟩ := contexts context mem_cons_self
      rw [stateAfter_contextOf]
      cases keyed <;> rfl

theorem Before.skips (before : Before stack machine) : skipsSpaces machine.state = true := by
  rcases before.state with state | state | ⟨state, _⟩ <;> rw [state] <;> rfl

theorem Open.skips (opened : Open keyed stack machine) : skipsSpaces machine.state = true := by
  rw [opened.state]
  cases keyed <;> rfl

/-- A string of the machine ends at its quote. -/
theorem accepts_body {body : List Char} (inside : machine.state = .inString) (known : RelaxedBody body) :
    machine.accepts (body ++ '"' :: rest) = machine.finishString.accepts rest := by
  have settled : machine.state ≠ .inNumber := by rw [inside]; decide
  induction known with
  | nil =>
      rw [nil_append, accepts_cons, feedChar_settled settled, feedSettled, inside]
      rfl
  | @plain c body quote backslash _ ih =>
      rw [cons_append, accepts_cons, feedChar_settled settled, feedSettled, inside]
      simp only [quote, backslash, if_false]
      exact ih
  | @escape c body _ ih =>
      have back : ({ machine with state := .inStringEscape } : JsonConstraint).feedChar c = machine := by
        rw [feedChar_settled (by simp), feedSettled, ← inside]
      rw [cons_append, cons_append, accepts_cons, feedChar_settled settled, feedSettled, inside]
      change ({ machine with state := .inStringEscape } : JsonConstraint).accepts _ = _
      rw [accepts_cons, back]
      exact ih

/-- A key without a backslash waits for a colon. -/
theorem accepts_key (inside : machine.state = .inObjectKey) (plain : relaxed.key key) :
    machine.accepts (key ++ '"' :: rest) = ({ machine with state := .afterKey } : JsonConstraint).accepts rest := by
  have settled : machine.state ≠ .inNumber := by rw [inside]; decide
  induction key with
  | nil =>
      rw [nil_append, accepts_cons, feedChar_settled settled, feedSettled, inside]
      rfl
  | cons c key ih =>
      obtain ⟨quote, backslash⟩ := plain c mem_cons_self
      rw [cons_append, accepts_cons, feedChar_settled settled, feedSettled, inside]
      simp only [quote, backslash, if_false]
      exact ih fun c member => plain c (mem_cons_of_mem _ member)

/-- A key with a backslash ends as a string. -/
theorem accepts_bareKey (inside : machine.state = .inObjectKey) (bare : relaxed.bareKey key) :
    machine.accepts (key ++ '"' :: rest) =
      ({ machine with state := .inString } : JsonConstraint).finishString.accepts rest := by
  have settled : machine.state ≠ .inNumber := by rw [inside]; decide
  obtain ⟨known, escaped⟩ := bare
  induction known with
  | nil => cases escaped
  | @plain c body quote backslash _ ih =>
      have later : '\\' ∈ body := (mem_cons.mp escaped).resolve_left (Ne.symm backslash)
      rw [cons_append, accepts_cons, feedChar_settled settled, feedSettled, inside]
      simp only [quote, backslash, if_false]
      exact ih later
  | @escape c body known _ =>
      rw [cons_append, cons_append, accepts_cons, feedChar_settled settled, feedSettled, inside]
      change ({ machine with state := .inStringEscape } : JsonConstraint).accepts _ = _
      rw [accepts_cons, feedChar_settled (by simp), feedSettled]
      exact accepts_body rfl known

/-- A number ends in front of a quiet text. -/
theorem accepts_finishValue (inside : machine.state = .inNumber) (quiet : Quiet rest) :
    machine.accepts rest = machine.finishValue.accepts rest := by
  have settled : machine.finishValue.state ≠ .inNumber := stateAfter_ne_inNumber _
  cases rest with
  | nil => rw [accepts_nil, accepts_nil, feedChar, if_pos inside, feedChar_settled settled]; rfl
  | cons ch rest =>
      have stops : continuesNumber ch = false := quiet ch rfl
      rw [accepts_cons, accepts_cons, feedChar, if_pos inside, feedChar_settled settled, stops]
      rfl

/-- The characters of a number leave its context. -/
theorem accepts_digits {digits : List Char} (inside : machine.state = .inNumber)
    (continues : ∀ c ∈ digits, continuesNumber c = true) (quiet : Quiet rest) :
    ∃ next, After machine.contextStack next ∧ machine.accepts (digits ++ rest) = next.accepts rest := by
  induction digits generalizing machine with
  | nil =>
      refine ⟨machine.finishValue, ⟨rfl, rfl, fun _ => rfl⟩, ?_⟩
      exact accepts_finishValue inside quiet
  | cons c digits ih =>
      have one := continues c mem_cons_self
      have pushed : ({ machine with keywordBuf := machine.keywordBuf ++ [c] } : JsonConstraint).state =
          .inNumber := inside
      obtain ⟨next, after, same⟩ := ih pushed fun c member => continues c (mem_cons_of_mem _ member)
      refine ⟨next, after, ?_⟩
      rw [cons_append, accepts_cons, feedChar, if_pos inside, one, if_pos rfl]
      exact same

/-- A character in front of a value starts the value. -/
theorem feedChar_startValue (before : Before stack machine) (space : isWhitespace ch = false)
    (open' : ch ≠ ']') : machine.feedChar ch = machine.startValue ch := by
  rcases before.state with state | state | ⟨state, flag⟩
  · rw [feedChar_settled (by rw [state]; decide), feedSettled, state]
    simp only [space, Bool.false_eq_true, if_false]
  · rw [feedChar_settled (by rw [state]; decide), feedSettled, state]
    simp only [space, Bool.false_eq_true, if_false]
  · rw [feedChar_settled (by rw [state]; decide), feedSettled, state]
    simp only [feedInArray, space, flag, open', Bool.false_eq_true, if_false]

/-- A bracket opens a context. -/
theorem feedChar_open (keyed : Bool) (before : Before stack machine) :
    Open keyed stack (machine.feedChar (if keyed then '{' else '[')) := by
  cases keyed with
  | false =>
      rw [feedChar_startValue before (by decide) (by decide), if_neg nofun, startValue,
        if_neg (by decide), if_pos rfl]
      exact ⟨congrArg (_ :: ·) before.contextStack, rfl, rfl⟩
  | true =>
      rw [feedChar_startValue before (by decide) (by decide), if_pos rfl, startValue, if_pos rfl]
      exact ⟨congrArg (_ :: ·) before.contextStack, rfl, rfl⟩

theorem closeContext_after {context : Char} (contextStack : machine.contextStack = context :: stack) :
    After stack machine.closeContext := by
  rw [closeContext, contextStack]
  exact ⟨rfl, rfl, fun _ => rfl⟩

/-- The bracket of the context closes it in front of an entry. -/
theorem feedChar_close_open (opened : Open keyed stack machine) : After stack (machine.feedChar (closeOf keyed)) := by
  have closed := closeContext_after opened.contextStack
  have state := opened.state
  have flag := opened.flag
  cases keyed with
  | false =>
      have same : machine.feedChar (closeOf false) = machine.closeContext := by
        rw [feedChar_settled (by rw [state]; decide), feedSettled, state]
        simp [feedInArray, flag, closeOf, isWhitespace]
      rwa [same]
  | true =>
      have same : machine.feedChar (closeOf true) = machine.closeContext := by
        rw [feedChar_settled (by rw [state]; decide), feedSettled, state]
        simp [feedInObject, flag, closeOf, isWhitespace]
      rwa [same]

/-- The bracket of the context closes it behind an entry. -/
theorem feedChar_close_after (after : After (contextOf keyed :: stack) machine) :
    After stack (machine.feedChar (closeOf keyed)) := by
  have closed := closeContext_after after.contextStack
  have state := after.state
  have flag := after.flag (cons_ne_nil _ _)
  rw [stateAfter_contextOf] at state
  cases keyed with
  | false =>
      have same : machine.feedChar (closeOf false) = machine.closeContext := by
        rw [feedChar_settled (by rw [state]; decide), feedSettled, state]
        simp [feedInArray, flag, closeOf, isWhitespace]
      rwa [same]
  | true =>
      have same : machine.feedChar (closeOf true) = machine.closeContext := by
        rw [feedChar_settled (by rw [state]; decide), feedSettled, state]
        simp [feedInObject, flag, closeOf, isWhitespace]
      rwa [same]

/-- A comma behind an entry asks for the next entry. -/
theorem feedChar_comma (after : After (contextOf keyed :: stack) machine) :
    Open keyed stack (machine.feedChar ',') := by
  have state := after.state
  have flag := after.flag (cons_ne_nil _ _)
  rw [stateAfter_contextOf] at state
  have same : machine.feedChar ',' = { machine with expectingCommaOrClose := false } := by
    cases keyed with
    | false =>
        rw [feedChar_settled (by rw [state]; decide), feedSettled, state]
        simp [feedInArray, flag, isWhitespace, state]
    | true =>
        rw [feedChar_settled (by rw [state]; decide), feedSettled, state]
        simp [feedInObject, flag, isWhitespace, state]
  rw [same]
  exact ⟨after.contextStack, state, rfl⟩

/-- A finished string is a value. -/
theorem finishString_after (machine : JsonConstraint) (contexts : Contexts machine.contextStack) :
    After machine.contextStack machine.finishString := by
  rw [finishString]
  cases known : machine.contextStack with
  | nil => exact ⟨rfl, rfl, fun wrong => absurd rfl wrong⟩
  | cons context stack =>
      obtain ⟨keyed, rfl⟩ := contexts context (by rw [known]; exact mem_cons_self)
      cases keyed with
      | false => exact ⟨rfl, rfl, fun _ => rfl⟩
      | true => exact ⟨rfl, rfl, fun _ => rfl⟩

/-- The state of a keyword compares with its keywords. -/
def Spells (machine : JsonConstraint) (keywords : List (List Char)) : Prop :=
  (machine.state = .inBool ∧ keywords = [['t', 'r', 'u', 'e'], ['f', 'a', 'l', 's', 'e']]) ∨
    (machine.state = .inNull ∧ keywords = [['n', 'u', 'l', 'l']])

variable {keywords : List (List Char)} {word : List Char} {keyed : Bool} {key : List Char} {c : Char}

variable (spells : Spells machine keywords)
include spells

theorem Spells.feedChar : machine.feedChar ch = machine.feedKeyword keywords ch := by
  rcases spells with ⟨state, rfl⟩ | ⟨state, rfl⟩
  · rw [feedChar_settled (by rw [state]; decide), feedSettled, state]
  · rw [feedChar_settled (by rw [state]; decide), feedSettled, state]

/-- No keyword is the start of another one. -/
theorem Spells.prefix_eq {word' : List Char} (known : word ∈ keywords) (known' : word' ∈ keywords)
    (initial : word <+: word') : word = word' := by
  have free : ∀ word ∈ keywords, ∀ word' ∈ keywords, word <+: word' → word = word' := by
    rcases spells with ⟨_, rfl⟩ | ⟨_, rfl⟩ <;> decide
  exact free word known word' known' initial

/-- The letters that are left of a keyword make a value. -/
theorem accepts_keyword {tail : List Char} (some : tail ≠ []) (known : machine.keywordBuf ++ tail ∈ keywords) :
    ∃ next, After machine.contextStack next ∧ machine.accepts (tail ++ rest) = next.accepts rest := by
  induction tail generalizing machine with
  | nil => exact absurd rfl some
  | cons c tail ih =>
      rw [append_cons] at known
      rw [cons_append, accepts_cons, spells.feedChar, feedKeyword]
      by_cases whole : machine.keywordBuf ++ [c] ∈ keywords
      · have same := spells.prefix_eq whole known (List.prefix_append _ _)
        have ended : tail = [] := append_right_eq_self.mp same.symm
        rw [if_pos whole, ended]
        exact ⟨({ machine with keywordBuf := [] } : JsonConstraint).finishValue,
          ⟨rfl, rfl, fun _ => rfl⟩, rfl⟩
      · have initial : keywords.any (machine.keywordBuf ++ [c]).isPrefixOf = true := by
          apply any_eq_true.mpr
          exact ⟨_, known, List.isPrefixOf_iff_prefix.mpr (List.prefix_append _ _)⟩
        rw [if_neg whole, if_pos initial]
        have pushed : Spells { machine with keywordBuf := machine.keywordBuf ++ [c] } keywords := spells
        apply ih pushed _ known
        rintro rfl
        rw [append_nil] at known
        exact whole known

omit spells

/-- The first letter of a keyword selects the keywords. -/
theorem startValue_spells (machine : JsonConstraint) (known : ch :: text ∈ jsonLiterals) : ∃ keywords,
    Spells (machine.startValue ch) keywords ∧ (machine.startValue ch).keywordBuf = [ch] ∧
    (machine.startValue ch).contextStack = machine.contextStack ∧ ch :: text ∈ keywords ∧ text ≠ [] ∧
    isWhitespace ch = false ∧ ch ≠ ']' := by
  simp only [jsonLiterals, mem_cons, not_mem_nil, or_false, List.cons.injEq] at known
  rcases known with ⟨rfl, rfl⟩ | ⟨rfl, rfl⟩ | ⟨rfl, rfl⟩
  · exact ⟨_, Or.inl ⟨rfl, rfl⟩, rfl, rfl, by decide, by decide, by decide, by decide⟩
  · exact ⟨_, Or.inl ⟨rfl, rfl⟩, rfl, rfl, by decide, by decide, by decide, by decide⟩
  · exact ⟨_, Or.inr ⟨rfl, rfl⟩, rfl, rfl, by decide, by decide, by decide, by decide⟩

/-- The letters of a keyword make a value. -/
theorem accepts_literal (before : Before stack machine) (known : word ∈ jsonLiterals) :
    ∃ next, After stack next ∧ machine.accepts (word ++ rest) = next.accepts rest := by
  cases word with
  | nil => exact absurd known (by decide)
  | cons c tail =>
      obtain ⟨keywords, spells, buffer, contexts, whole, some, space, bracket⟩ :=
        startValue_spells machine known
      rw [cons_append, accepts_cons, feedChar_startValue before space bracket]
      rw [← before.contextStack, ← contexts]
      apply accepts_keyword spells some
      rw [buffer]
      exact whole

theorem digit_code (digit : ('0' ≤ c && c ≤ '9') = true) : 48 ≤ c.toNat ∧ c.toNat ≤ 57 := by
  rw [Bool.and_eq_true, decide_eq_true_eq, decide_eq_true_eq] at digit
  exact ⟨UInt32.le_iff_toNat_le.mp digit.1, UInt32.le_iff_toNat_le.mp digit.2⟩

theorem continuesNumber_code (continues : continuesNumber c = true) :
    (48 ≤ c.toNat ∧ c.toNat ≤ 57) ∨ c.toNat ∈ [46, 101, 69, 43, 45] := by
  simp only [continuesNumber, Bool.or_eq_true, decide_eq_true_eq] at continues
  rcases continues with ((((digit | rfl) | rfl) | rfl) | rfl) | rfl
  · exact Or.inl (digit_code digit)
  all_goals exact Or.inr (by decide)

theorem startsNumber_code (starts : startsNumber c = true) : (48 ≤ c.toNat ∧ c.toNat ≤ 57) ∨ c.toNat = 45 := by
  simp only [startsNumber, Bool.or_eq_true, decide_eq_true_eq] at starts
  rcases starts with rfl | digit
  · exact Or.inr rfl
  · exact Or.inl (digit_code digit)

/-- No space belongs to a number. -/
theorem continuesNumber_space (continues : continuesNumber c = true) : isWhitespace c = false := by
  have code := continuesNumber_code continues
  simp only [mem_cons, not_mem_nil, or_false] at code
  simp only [isWhitespace, Bool.or_eq_false_iff, Bool.and_eq_false_iff, decide_eq_false_iff_not]
  omega

/-- A digit or a minus sign starts a number. -/
theorem startValue_number (starts : startsNumber ch = true) :
    machine.startValue ch = { machine with state := .inNumber, keywordBuf := [ch] } ∧
      isWhitespace ch = false ∧ ch ≠ ']' := by
  have code := startsNumber_code starts
  have other : ∀ c : Char, c.toNat ∈ [123, 91, 34, 93] → ch ≠ c := by
    rintro c member rfl
    simp only [mem_cons, not_mem_nil, or_false] at member
    omega
  refine ⟨?_, ?_, other ']' (by decide)⟩
  · rw [startValue, if_neg (other '{' (by decide)), if_neg (other '[' (by decide)),
      if_neg (other '"' (by decide)), if_pos starts]
  · simp only [isWhitespace, Bool.or_eq_false_iff, Bool.and_eq_false_iff, decide_eq_false_iff_not]
    omega

/-- The machine reads a part of a text and then goes on with the rest. -/
def Reads (part : JsonPart) (text rest : List Char) : Prop :=
  match part with
  | .value | .entry false => ∀ machine stack, Before stack machine → Contexts stack → Quiet rest →
      ∃ next, After stack next ∧ machine.accepts text = next.accepts rest
  | .entry true => ∀ machine stack, Open true stack machine → Contexts stack → Quiet rest →
      ∃ next, After ('o' :: stack) next ∧ machine.accepts text = next.accepts rest
  | .series keyed _ => ∀ machine stack tail, Open keyed stack machine → Contexts stack →
      rest = closeOf keyed :: tail → ∃ next, After stack next ∧ machine.accepts text = next.accepts tail

theorem Contexts.cons (keyed : Bool) (contexts : Contexts stack) : Contexts (contextOf keyed :: stack) := by
  intro context member
  rcases mem_cons.mp member with rfl | old
  · exact ⟨keyed, rfl⟩
  · exact contexts context old

theorem Open.contexts (opened : Open keyed stack machine) (contexts : Contexts stack) :
    Contexts machine.contextStack := by
  rw [opened.contextStack]
  exact contexts.cons keyed

theorem quiet_space (spaces : Spaces relaxed.space text rest) (quiet : Quiet rest) : Quiet text := by
  cases spaces with
  | done => exact quiet
  | @skip c text rest space _ =>
      rintro c' ⟨⟩
      cases continues : continuesNumber c with
      | false => rfl
      | true =>
          have blank : isWhitespace c = true := space
          rw [continuesNumber_space continues] at blank
          cases blank

theorem Open.before (opened : Open false stack machine) : Before ('a' :: stack) machine where
  contextStack := opened.contextStack
  state := Or.inr (Or.inr ⟨opened.state, opened.flag⟩)

/-- A quote in front of an entry of an object starts a key. -/
theorem feedChar_quote (opened : Open true stack machine) :
    machine.feedChar '"' = { machine with state := .inObjectKey } := by
  have state := opened.state
  have flag := opened.flag
  rw [if_pos rfl] at state
  rw [feedChar_settled (by rw [state]; decide), feedSettled, state]
  simp [feedInObject, flag, isWhitespace]

/-- Behind a value the spaces are skipped. -/
theorem After.accepts_spaces (after : After stack machine) (contexts : Contexts stack)
    (spaces : Spaces relaxed.space text rest) : machine.accepts text = machine.accepts rest :=
  JsonConstraint.accepts_spaces (after.skips contexts) spaces

theorem quiet_close (keyed : Bool) (text : List Char) : Quiet (closeOf keyed :: text) := by
  rintro c ⟨⟩
  cases keyed <;> decide

/-- An entry leads from an open context to the place behind it. -/
theorem Reads.entry {keyed : Bool} (reads : Reads (.entry keyed) text rest)
    (opened : Open keyed stack machine) (contexts : Contexts stack) (quiet : Quiet rest) :
    ∃ next, After (contextOf keyed :: stack) next ∧ machine.accepts text = next.accepts rest := by
  cases keyed with
  | false => exact reads machine _ opened.before (contexts.cons false) quiet
  | true => exact reads machine stack opened contexts quiet

/-- The machine reads every part of the relaxed dialect. The induction is on the grammar. -/
theorem reads {part : JsonPart} (form : JsonForm relaxed part text rest) : Reads part text rest := by
  induction form with
  | literal rest known => exact fun machine stack before _ _ => accepts_literal before known
  | @number token rest known =>
      intro machine stack before contexts quiet
      obtain ⟨first, digits, rfl, starts, continues⟩ := known
      obtain ⟨started, space, bracket⟩ := @startValue_number machine _ starts
      rw [cons_append, accepts_cons, feedChar_startValue before space bracket, started]
      have inside : ({ machine with state := .inNumber, keywordBuf := [first] } : JsonConstraint).state =
          .inNumber := rfl
      rw [← before.contextStack]
      exact accepts_digits inside continues quiet
  | string rest body =>
      intro machine stack before contexts quiet
      rw [accepts_cons, feedChar_startValue before (by decide) (by decide)]
      have started : machine.startValue '"' = { machine with state := .inString } := rfl
      rw [started, accepts_body rfl body]
      have same := before.contextStack
      subst same
      have after := finishString_after { machine with state := .inString } contexts
      exact ⟨_, after, rfl⟩
  | @array text rest _ ih =>
      intro machine stack before contexts quiet
      have opened := feedChar_open false before
      rw [accepts_cons]
      exact ih _ stack rest opened contexts rfl
  | @object text rest _ ih =>
      intro machine stack before contexts quiet
      have opened := feedChar_open true before
      rw [accepts_cons]
      exact ih _ stack rest opened contexts rfl
  | element front _ back ih =>
      intro machine stack before contexts quiet
      obtain ⟨next, after, same⟩ := ih machine stack before contexts (quiet_space back quiet)
      rw [accepts_spaces before.skips front, same]
      exact ⟨next, after, after.accepts_spaces contexts back⟩
  | @pair text key after value rest front plain colon _ ih =>
      intro machine stack opened contexts quiet
      rw [accepts_spaces opened.skips front, accepts_cons, feedChar_quote opened, accepts_key rfl plain]
      rw [accepts_spaces rfl colon, accepts_cons]
      have before : Before ('o' :: stack) (({ machine with state := .afterKey } : JsonConstraint).feedChar
          ':') := ⟨opened.contextStack, Or.inr (Or.inl rfl)⟩
      exact ih _ _ before (contexts.cons true) quiet
  | @bare text key after rest front bare back =>
      intro machine stack opened contexts quiet
      rw [accepts_spaces opened.skips front, accepts_cons, feedChar_quote opened, accepts_bareKey rfl bare]
      have after := finishString_after { machine with state := .inString } (opened.contexts contexts)
      have stacked : machine.contextStack = 'o' :: stack := opened.contextStack
      rw [← stacked]
      refine ⟨_, after, ?_⟩
      exact after.accepts_spaces (opened.contexts contexts) back
  | none _ spaces =>
      intro machine stack tail opened contexts same
      subst same
      refine ⟨_, feedChar_close_open opened, ?_⟩
      rw [accepts_spaces opened.skips spaces, accepts_cons]
  | @last keyed fresh text rest _ ih =>
      intro machine stack tail opened contexts same
      subst same
      obtain ⟨next, after, same⟩ := ih.entry opened contexts (quiet_close keyed tail)
      rw [same, accepts_cons]
      exact ⟨_, feedChar_close_after after, rfl⟩
  | @more keyed fresh text middle rest _ _ ih ih' =>
      intro machine stack tail opened contexts same
      obtain ⟨next, after, same'⟩ := ih.entry opened contexts (by rintro c ⟨⟩; decide)
      rw [same', accepts_cons]
      exact ih' _ stack tail (feedChar_comma after) contexts same

end Pictor.JsonConstraint
