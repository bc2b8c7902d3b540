import Mathlib.Tactic.IntervalCases
import Pictor.Proof.Decoding.JsonAccepts

namespace Pictor.JsonConstraint
open List

/-- The states that the accepted characters of a run reach. -/
inductive Reachable : JsonConstraint → Prop
  | new : Reachable new
  | advance {machine : JsonConstraint} (ch : Char) : Reachable machine → (machine.advance ch.val).1 = true →
      Reachable (machine.advance ch.val).2

variable {machine : JsonConstraint} {ch : Char}

/-- The flag is clear in front of the value of an object. -/
def ClearInValue (machine : JsonConstraint) : Prop :=
  machine.state = .inObjectValue → machine.expectingCommaOrClose = false

theorem clear_of_ne (other : machine.state ≠ .inObjectValue) : ClearInValue machine := fun same => absurd same other

theorem stateAfter_ne_inObjectValue (stack : List Char) : stateAfter stack ≠ .inObjectValue := by
  rw [stateAfter.eq_def]
  split <;> decide

theorem startValue_clear : ClearInValue (machine.startValue ch) := by
  apply clear_of_ne
  simp only [startValue]
  repeat' split
  all_goals exact (by simp [fail])

theorem closeContext_clear : ClearInValue machine.closeContext := by
  apply clear_of_ne
  rw [closeContext]
  split
  · exact stateAfter_ne_inObjectValue _
  · simp

theorem finishString_clear : ClearInValue machine.finishString := by
  apply clear_of_ne
  rw [finishString]
  split <;> simp [fail]

theorem finishValue_clear : ClearInValue machine.finishValue := clear_of_ne (stateAfter_ne_inObjectValue _)

theorem feedKeyword_clear (keywords : List (List Char)) (other : machine.state ≠ .inObjectValue) :
    ClearInValue (machine.feedKeyword keywords ch) := by
  simp only [feedKeyword]
  split
  · exact finishValue_clear
  · split
    · exact clear_of_ne other
    · exact clear_of_ne (by simp [fail])

/-- Outside a number, only a colon leads to the value of an object. The cases are the states. -/
theorem feedSettled_clear (clear : ClearInValue machine) : ClearInValue (machine.feedSettled ch) := by
  have failed : ClearInValue machine.fail := clear_of_ne (by simp [fail])
  rw [feedSettled]
  cases state : machine.state with
  | error => exact clear
  | complete =>
      dsimp only
      split
      · exact clear
      · exact failed
  | start =>
      dsimp only
      split
      · exact clear
      · exact startValue_clear
  | inObject =>
      simp only [feedInObject]
      repeat' split
      · exact clear
      · exact clear_of_ne (by simp [state])
      · exact closeContext_clear
      · exact failed
      · exact clear_of_ne (by simp)
      · exact closeContext_clear
      · exact failed
  | inObjectKey =>
      dsimp only
      repeat' split
      · exact clear_of_ne (by simp)
      · exact clear_of_ne (by simp)
      · exact clear
  | afterKey =>
      dsimp only
      repeat' split
      · exact clear
      · exact fun _ => rfl
      · exact failed
  | inObjectValue =>
      dsimp only
      split
      · exact clear
      · exact startValue_clear
  | inArray =>
      simp only [feedInArray]
      repeat' split
      · exact clear
      · exact clear_of_ne (by simp [state])
      · exact closeContext_clear
      · exact failed
      · exact closeContext_clear
      · exact startValue_clear
  | inArrayValue =>
      simp only [feedInArrayValue]
      repeat' split
      · exact clear
      · exact clear_of_ne (by simp)
      · exact closeContext_clear
      · exact failed
      · exact clear_of_ne (by simp)
      · exact closeContext_clear
      · exact failed
      · exact startValue_clear
  | inString =>
      dsimp only
      repeat' split
      · exact finishString_clear
      · exact clear_of_ne (by simp)
      · exact clear
  | inStringEscape => exact clear_of_ne (by simp)
  | inNumber => exact clear
  | inBool => exact feedKeyword_clear _ (by simp [state])
  | inNull => exact feedKeyword_clear _ (by simp [state])

theorem feedChar_clear (clear : ClearInValue machine) : ClearInValue (machine.feedChar ch) := by
  rw [feedChar]
  split
  · rename_i number
    split
    · exact clear_of_ne (by simp [number])
    · exact feedSettled_clear finishValue_clear
  · exact feedSettled_clear clear

/-- What holds in every reachable state. -/
structure Tidy (machine : JsonConstraint) : Prop where
  shaped : Shaped machine
  clear : ClearInValue machine
  alive : machine.state ≠ .error

theorem Reachable.tidy (reachable : Reachable machine) : Tidy machine := by
  induction reachable with
  | new => exact ⟨new_shaped, clear_of_ne (by decide), by decide⟩
  | @advance machine ch _ accepted tidy =>
      rw [advance_val tidy.alive] at accepted ⊢
      have alive := of_decide_eq_true accepted
      rcases feedChar_goesOn ch tidy.shaped with failed | ⟨shaped, _⟩
      · exact absurd failed alive
      · exact ⟨shaped, feedChar_clear tidy.clear, alive⟩

/-- The characters that start a value. -/
def startsValue (ch : Char) : Bool :=
  ch = '{' || ch = '[' || ch = '"' || startsNumber ch || ch = 't' || ch = 'f' || ch = 'n'

theorem startValue_alive : (machine.startValue ch).state ≠ .error ↔ startsValue ch = true := by
  simp only [startValue, startsValue]
  repeat' split
  all_goals simp_all [fail]

theorem stateAfter_alive {stack : List Char} (contexts : Contexts stack) : stateAfter stack ≠ .error := by
  cases stack with
  | nil => decide
  | cons context below =>
      obtain ⟨keyed, rfl⟩ := contexts context mem_cons_self
      rw [stateAfter_contextOf]
      cases keyed <;> decide

variable (contexts : Contexts machine.contextStack)
include contexts

theorem closeContext_alive : machine.closeContext.state ≠ .error := by
  rw [closeContext]
  split
  · rename_i context rest stacked
    rw [stacked] at contexts
    exact stateAfter_alive fun other member => contexts other (mem_cons_of_mem _ member)
  · simp

theorem finishString_alive : machine.finishString.state ≠ .error := by
  have after := stateAfter_alive contexts
  rw [finishString]
  split
  · simp
  · simp
  · simp
  · rename_i stacked
    rw [stateAfter.eq_def] at after
    split at after <;> simp_all

theorem feedInObject_alive (state : machine.state = .inObject) : (machine.feedInObject ch).state ≠ .error ↔
      (isWhitespace ch || ch = '}' || ch = if machine.expectingCommaOrClose then ',' else '"') = true := by
  have closed := closeContext_alive contexts
  simp only [feedInObject]
  repeat' split
  all_goals simp_all [fail]

theorem feedInArray_alive (state : machine.state = .inArray) :
    (machine.feedInArray ch).state ≠ .error ↔ (isWhitespace ch || ch = ']' ||
      if machine.expectingCommaOrClose then decide (ch = ',') else startsValue ch) = true := by
  have closed := closeContext_alive contexts
  simp only [feedInArray]
  repeat' split
  all_goals simp_all [fail, startValue_alive]

theorem feedKeyword_alive (alive : machine.state ≠ .error) (keywords : List (List Char)) :
    (machine.feedKeyword keywords ch).state ≠ .error ↔
      (keywords.any (machine.keywordBuf ++ [ch]).isPrefixOf) = true := by
  have finished : ∀ machine' : JsonConstraint, machine'.contextStack = machine.contextStack →
      machine'.finishValue.state ≠ .error := by
    intro machine' same
    rw [← same] at contexts
    exact stateAfter_alive contexts
  simp only [feedKeyword]
  split
  · rename_i member
    constructor
    · intro _
      rw [any_eq_true]
      exact ⟨_, member, List.isPrefixOf_iff_prefix.mpr (prefix_refl _)⟩
    · exact fun _ => finished _ rfl
  · split
    · rename_i begun
      exact iff_of_true alive begun
    · rename_i strange
      exact iff_of_false (fun alive => alive rfl) strange

omit contexts

/-- The spaces that the mask does not list. -/
def unlistedSpace (ch : Char) : Bool := ch = '\r' || ch = '\x0b' || ch = '\x0c'

/-- The characters on which the mask and the state machine differ. -/
def diverges (machine : JsonConstraint) (ch : Char) : Bool :=
  match machine.state with
  | .start | .inObject | .inObjectValue | .complete => unlistedSpace ch
  | .afterKey => unlistedSpace ch || ch = '\n'
  | .inObjectKey | .inString => ch.toNat < 32 || ch.toNat = 127
  | .inStringEscape => ¬ ch ∈ ['"', '\\', '/', 'b', 'f', 'n', 'r', 't', 'u']
  | .inArray => unlistedSpace ch || (ch = ']' && !machine.expectingCommaOrClose)
  -- The mask does not look at the contexts behind a number.
  | .inNumber => unlistedSpace ch || (ch = ',' && machine.contextStack = []) ||
      (ch = '}' && machine.contextStack.head? ≠ some 'o') || (ch = ']' && machine.contextStack.head? ≠ some 'a')
  -- The mask does not look at the letters of the keyword so far.
  | .inBool => keywordChars.contains ch &&
      !([['t', 'r', 'u', 'e'], ['f', 'a', 'l', 's', 'e']].any (machine.keywordBuf ++ [ch]).isPrefixOf)
  | .inNull => keywordChars.contains ch && !([['n', 'u', 'l', 'l']].any (machine.keywordBuf ++ [ch]).isPrefixOf)
  | .inArrayValue | .error => false

theorem tokenChar_toNat (ch : Char) : tokenChar ch.toNat = ch := by
  have same : UInt32.ofNat ch.toNat = ch.val := UInt32.ofNat_toNat
  rw [tokenChar, dif_pos (by rw [same]; exact ch.valid)]
  exact Char.ext same

/-- An ASCII character is allowed when it is listed. -/
theorem allowedTokens_ascii (alive : machine.state ≠ .error) {vocabSize : Nat} (ascii : ch.toNat < 128)
    (inside : ch.toNat < vocabSize) (generated : List UInt32) :
    (∃ mask, machine.allowedTokens generated vocabSize = some mask ∧ mask[ch.toNat]? = some true) ↔
      ch ∈ machine.validNextChars := by
  rw [allowedTokens, if_neg alive]
  simp only [Option.some.injEq, exists_eq_left', getElem?_map, getElem?_range inside, Option.map_some,
    tokenChar_toNat, Bool.or_eq_true, decide_eq_true_eq, contains_iff_mem]
  exact or_iff_right (Nat.not_lt.mpr (Nat.le_of_lt_succ ascii))

/-- The listed characters are compared with the accepted ones at the characters of three lists. -/
theorem compare_lists {listed alive apart : List Char} {accepted diverging : Bool} (known : accepted = true ↔ ch ∈ alive)
    (known' : diverging = true ↔ ch ∈ apart)
    (inside : (listed.all fun c => apart.contains c || alive.contains c) = true)
    (covered : (alive.all fun c => apart.contains c || listed.contains c) = true)
    (only : (apart.all fun c => listed.contains c != alive.contains c) = true) :
    (ch ∈ listed ↔ accepted = true) ↔ diverging = false := by
  simp only [all_eq_true, Bool.or_eq_true, contains_iff_mem, bne_iff_ne] at inside covered only
  rw [known, ← Bool.not_eq_true, known']
  constructor
  · intro same member
    apply only ch member
    rw [Bool.eq_iff_iff, contains_iff_mem, contains_iff_mem]
    exact same
  · intro outside
    exact ⟨fun member => (inside ch member).resolve_left outside, fun member => (covered ch member).resolve_left outside⟩

def digitChars : List Char := ['0', '1', '2', '3', '4', '5', '6', '7', '8', '9']

theorem mem_digitChars : (decide ('0' ≤ ch) && decide (ch ≤ '9')) = true ↔ ch ∈ digitChars := by
  rw [Bool.and_eq_true, decide_eq_true_eq, decide_eq_true_eq]
  constructor
  · rintro ⟨low, high⟩
    have low : 48 ≤ ch.toNat := low
    have high : ch.toNat ≤ 57 := high
    rw [← Char.ofNat_toNat ch]
    generalize ch.toNat = code at low high
    interval_cases code <;> decide
  · have each : (digitChars.all fun c => decide ('0' ≤ c) && decide (c ≤ '9')) = true := rfl
    simp only [all_eq_true, Bool.and_eq_true, decide_eq_true_eq] at each
    exact each ch

def spaceChars : List Char := [' ', '\t', '\n', '\r', '\x0b', '\x0c']

theorem mem_spaceChars (ascii : ch.toNat < 128) : isWhitespace ch = true ↔ ch ∈ spaceChars := by
  constructor
  · simp only [isWhitespace, Bool.or_eq_true, Bool.and_eq_true, decide_eq_true_eq]
    intro space
    have low : 9 ≤ ch.toNat ∧ ch.toNat ≤ 13 ∨ ch.toNat = 32 := by omega
    rw [← Char.ofNat_toNat ch]
    generalize ch.toNat = code at low
    rcases low with ⟨low, high⟩ | rfl
    · interval_cases code <;> decide
    · decide
  · exact all_eq_true.mp (show spaceChars.all isWhitespace = true from rfl) ch

theorem mem_unlistedSpace : unlistedSpace ch = true ↔ ch ∈ ['\r', '\x0b', '\x0c'] := by
  simp [unlistedSpace, or_assoc]

theorem mem_startsValue : startsValue ch = true ↔ ch ∈ ['{', '[', '"', '-'] ++ digitChars ++ ['t', 'f', 'n'] := by
  simp only [startsValue, startsNumber, Bool.or_eq_true, mem_append, ← mem_digitChars]
  simp only [decide_eq_true_eq, mem_cons, not_mem_nil, or_false]
  tauto

/-- A keyword accepts only letters of the mask. -/
theorem keyword_listed {keywords : List (List Char)} (letters : ∀ keyword ∈ keywords, keyword ⊆ keywordChars)
    {begun : List Char} (next : keywords.any (begun ++ [ch]).isPrefixOf = true) : ch ∈ keywordChars := by
  obtain ⟨keyword, member, front⟩ := any_eq_true.mp next
  have inside := (List.isPrefixOf_iff_prefix.mp front).subset
  exact letters keyword member (inside (mem_append_right _ mem_cons_self))

theorem compare_keyword {keywords : List (List Char)} (letters : ∀ keyword ∈ keywords, keyword ⊆ keywordChars)
    {begun : List Char} : (ch ∈ keywordChars ↔ keywords.any (begun ++ [ch]).isPrefixOf = true) ↔
      (keywordChars.contains ch && !keywords.any (begun ++ [ch]).isPrefixOf) = false := by
  have listed := @keyword_listed ch keywords letters begun
  rw [Bool.and_eq_false_iff, Bool.not_eq_false', ← Bool.not_eq_true, contains_iff_mem]
  tauto

/-- Spaces are skipped in front of other characters. -/
theorem spaced_alive {next : JsonConstraint} {accepted : Bool} (alive : machine.state ≠ .error)
    (known : next.state ≠ .error ↔ accepted = true) :
    (if isWhitespace ch = true then machine else next).state ≠ .error ↔ (isWhitespace ch || accepted) = true := by
  split
  · rename_i space
    rw [space]
    exact iff_of_true alive rfl
  · rename_i solid
    rw [Bool.eq_false_iff.mpr solid]
    exact known

/-- Inside a string only the closing quote can fail. -/
theorem string_alive {closed : JsonConstraint} (alive : machine.state ≠ .error) (fine : closed.state ≠ .error) :
    (if ch = '"' then closed else if ch = '\\' then { machine with state := .inStringEscape } else machine).state
      ≠ .error ↔ true = true := by
  repeat' split
  · exact iff_of_true fine rfl
  · exact iff_of_true (by simp) rfl
  · exact iff_of_true alive rfl

/-- What follows a number is what may follow a value in the context. -/
theorem finishValue_alive (contexts : Contexts machine.contextStack) :
    (machine.finishValue.feedSettled ch).state ≠ .error ↔ (isWhitespace ch || match machine.contextStack.head? with
      | none => false
      | some context => ch = (if context = 'o' then '}' else ']') || ch = ',') = true := by
  cases stacked : machine.contextStack with
  | nil =>
      have state : machine.finishValue.state = .complete := congrArg stateAfter stacked
      simp only [feedSettled, state]
      exact spaced_alive (by rw [state]; decide) (iff_of_false (fun alive => alive rfl) Bool.false_ne_true)
  | cons context below =>
      obtain ⟨keyed, rfl⟩ := contexts context (by rw [stacked]; exact mem_cons_self)
      have state : machine.finishValue.state = if keyed then .inObject else .inArray := by
        rw [← stateAfter_contextOf keyed below, ← stacked]
        rfl
      cases keyed with
      | true =>
          have alive := @feedInObject_alive machine.finishValue ch contexts state
          simp only [feedSettled, state, if_true]
          rw [alive, Bool.or_assoc]
          rfl
      | false =>
          have alive := @feedInArray_alive machine.finishValue ch contexts state
          simp only [feedSettled, state, Bool.false_eq_true, if_false]
          rw [alive, Bool.or_assoc]
          rfl

/-- The mask of a number does not depend on the context. -/
theorem number_listed (tidy : Tidy machine) (state : machine.state = .inNumber) (ascii : ch.toNat < 128) :
    (ch ∈ machine.validNextChars ↔ (machine.feedChar ch).state ≠ .error) ↔ machine.diverges ch = false := by
  have contexts := tidy.shaped.contexts
  have alive : (machine.feedChar ch).state ≠ .error ↔ (continuesNumber ch || (isWhitespace ch ||
      match machine.contextStack.head? with
      | none => false
      | some context => ch = (if context = 'o' then '}' else ']') || ch = ',')) = true := by
    rw [feedChar, if_pos state]
    split
    · rename_i continues
      rw [continues]
      exact iff_of_true tidy.alive rfl
    · rename_i ended
      rw [Bool.eq_false_iff.mpr ended]
      exact finishValue_alive contexts
  have continues : continuesNumber ch = true ↔ ch ∈ digitChars ++ ['.', 'e', 'E', '+', '-'] := by
    simp only [continuesNumber, Bool.or_eq_true, mem_append, ← mem_digitChars]
    simp only [decide_eq_true_eq, mem_cons, not_mem_nil, or_false]
    tauto
  have spaces := mem_spaceChars ascii
  rw [alive, validNextChars, diverges, state]
  clear alive
  dsimp only
  -- Behind the end of a number the context decides which characters follow.
  cases stacked : machine.contextStack with
  | nil =>
      apply @compare_lists ch _ (digitChars ++ ['.', 'e', 'E', '+', '-'] ++ spaceChars) ['\r', '\x0b', '\x0c', ',', '}', ']']
      · simp [continues, spaces, or_assoc]
      · simp [unlistedSpace, or_assoc]
      · rfl
      · rfl
      · rfl
  | cons context below =>
      obtain ⟨keyed, rfl⟩ := contexts context (by rw [stacked]; exact mem_cons_self)
      cases keyed with
      | true =>
          apply @compare_lists ch _ (digitChars ++ ['.', 'e', 'E', '+', '-'] ++ spaceChars ++ ['}', ','])
            ['\r', '\x0b', '\x0c', ']']
          · simp [continues, spaces, or_assoc, contextOf]
          · simp [unlistedSpace, or_assoc, contextOf]
          · rfl
          · rfl
          · rfl
      | false =>
          apply @compare_lists ch _ (digitChars ++ ['.', 'e', 'E', '+', '-'] ++ spaceChars ++ [']', ','])
            ['\r', '\x0b', '\x0c', '}']
          · simp [continues, spaces, or_assoc, contextOf]
          · simp [unlistedSpace, or_assoc, contextOf]
          · rfl
          · rfl
          · rfl

theorem mem_stringChars (ascii : ch.toNat < 128) :
    ch ∈ stringChars ↔ (decide (ch.toNat < 32) || decide (ch.toNat = 127)) = false := by
  rw [stringChars, Bool.or_eq_false_iff, decide_eq_false_iff_not, decide_eq_false_iff_not]
  constructor
  · intro member
    rcases mem_append.mp member with inside | marks
    · obtain ⟨code, kept, rfl⟩ := mem_map.mp inside
      have bounds := mem_range'_1.mp (mem_filter.mp kept).1
      rw [Char.ofNat, dif_pos (Or.inl (by omega))]
      change ¬code < 32 ∧ ¬code = 127
      omega
    · rcases mem_pair.mp marks with rfl | rfl <;> decide
  · rintro ⟨low, high⟩
    by_cases quote : ch = '"'
    · rw [quote]
      exact mem_append_right _ mem_cons_self
    · apply mem_append_left
      refine mem_map.mpr ⟨ch.toNat, mem_filter.mpr ⟨mem_range'_1.mpr (by omega), ?_⟩, Char.ofNat_toNat ch⟩
      apply decide_eq_true
      intro same
      exact quote (Char.toNat_inj.mp same)

/-- The mask inside a string leaves out the control characters. -/
theorem string_listed (ascii : ch.toNat < 128) : (ch ∈ stringChars ↔ true = true) ↔
    (decide (ch.toNat < 32) || decide (ch.toNat = 127)) = false := by
  rw [iff_true_right rfl, mem_stringChars ascii]

/-- In a reachable state, the mask and the state machine agree on the characters outside the table. -/
theorem listed_iff_alive (tidy : Tidy machine) (ascii : ch.toNat < 128) :
    (ch ∈ machine.validNextChars ↔ (machine.feedChar ch).state ≠ .error) ↔ machine.diverges ch = false := by
  have contexts := tidy.shaped.contexts
  have fits := tidy.shaped.fits
  have spaces := mem_spaceChars ascii
  have unlisted := @mem_unlistedSpace ch
  have value := @mem_startsValue ch
  have before : (ch ∈ valueChars ↔ (isWhitespace ch || startsValue ch) = true) ↔ unlistedSpace ch = false := by
    apply @compare_lists ch _ (spaceChars ++ (['{', '[', '"', '-'] ++ digitChars ++ ['t', 'f', 'n'])) ['\r', '\x0b', '\x0c']
    · rw [Bool.or_eq_true, spaces, value]
      exact mem_append.symm
    · exact unlisted
    · rfl
    · rfl
    · rfl
  by_cases number : machine.state = .inNumber
  · exact number_listed tidy number ascii
  · rw [validNextChars, diverges, feedChar_settled number, feedSettled]
    cases state : machine.state with
    | start =>
        dsimp only
        rw [spaced_alive tidy.alive startValue_alive]
        exact before
    | inObject =>
        dsimp only
        rw [feedInObject_alive contexts state]
        cases machine.expectingCommaOrClose with
        | true =>
            apply @compare_lists ch _ (spaceChars ++ ['}', ',']) ['\r', '\x0b', '\x0c']
            · simp [spaces, or_assoc]
            · exact unlisted
            · rfl
            · rfl
            · rfl
        | false =>
            apply @compare_lists ch _ (spaceChars ++ ['}', '"']) ['\r', '\x0b', '\x0c']
            · simp [spaces, or_assoc]
            · exact unlisted
            · rfl
            · rfl
            · rfl
    | inObjectKey =>
        dsimp only
        rw [string_alive tidy.alive (by simp)]
        exact string_listed ascii
    | afterKey =>
        have colon : (if ch = ':' then { machine with state := .inObjectValue, expectingCommaOrClose := false }
            else machine.fail).state ≠ .error ↔ decide (ch = ':') = true := by
          split
          · rename_i same
            exact iff_of_true (by simp) (decide_eq_true same)
          · rename_i other
            exact iff_of_false (fun alive => alive rfl) (by simpa using other)
        dsimp only
        rw [spaced_alive tidy.alive colon]
        apply @compare_lists ch _ (spaceChars ++ [':']) ['\r', '\x0b', '\x0c', '\n']
        · simp [spaces]
        · simp [unlistedSpace, or_assoc]
        · rfl
        · rfl
        · rfl
    | inObjectValue =>
        dsimp only
        rw [tidy.clear state, spaced_alive tidy.alive startValue_alive, if_neg Bool.false_ne_true]
        exact before
    | inArray =>
        rw [state] at fits
        obtain ⟨below, stacked⟩ := fits
        dsimp only
        rw [feedInArray_alive contexts state, stacked, head?_cons]
        cases machine.expectingCommaOrClose with
        | true =>
            apply @compare_lists ch _ (spaceChars ++ [']', ',']) ['\r', '\x0b', '\x0c']
            · simp [spaces, or_assoc]
            · simp [unlistedSpace, or_assoc]
            · rfl
            · rfl
            · rfl
        | false =>
            apply @compare_lists ch _ (spaceChars ++ (']' :: (['{', '[', '"', '-'] ++ digitChars ++ ['t', 'f', 'n'])))
              ['\r', '\x0b', '\x0c', ']']
            · rw [mem_append, mem_cons, ← spaces, ← value]
              simp [or_assoc]
            · simp [unlistedSpace, or_assoc]
            · rfl
            · rfl
            · rfl
    | inArrayValue =>
        rw [state] at fits
        exact absurd fits not_false
    | inString =>
        dsimp only
        rw [string_alive tidy.alive (finishString_alive contexts)]
        exact string_listed ascii
    | inStringEscape =>
        have alive : ({ machine with state := .inString } : JsonConstraint).state ≠ .error := by simp
        dsimp only at alive ⊢
        rw [iff_true_right alive, decide_eq_false_iff_not, not_not]
    | inNumber => exact absurd state number
    | inBool =>
        dsimp only
        rw [feedKeyword_alive contexts tidy.alive]
        exact compare_keyword (by decide)
    | inNull =>
        dsimp only
        rw [feedKeyword_alive contexts tidy.alive]
        exact compare_keyword (by decide)
    | complete =>
        dsimp only
        rw [spaced_alive tidy.alive (iff_of_false (fun alive => alive rfl) Bool.false_ne_true)]
        apply @compare_lists ch _ spaceChars ['\r', '\x0b', '\x0c']
        · rw [Bool.or_false, spaces]
        · exact unlisted
        · rfl
        · rfl
        · rfl
    | error => exact absurd state tidy.alive

/-- In every reachable state and for every ASCII character, the mask agrees with the state machine if and only if the
character is outside the table of this state. -/
theorem allowedTokens_iff_advance (reachable : Reachable machine) (ascii : ch.toNat < 128) {vocabSize : Nat}
    (inside : ch.toNat < vocabSize) (generated : List UInt32) :
    ((∃ mask, machine.allowedTokens generated vocabSize = some mask ∧ mask[ch.toNat]? = some true) ↔
      (machine.advance ch.val).1 = true) ↔ machine.diverges ch = false := by
  have tidy := reachable.tidy
  rw [allowedTokens_ascii tidy.alive ascii inside, advance_val tidy.alive, decide_eq_true_eq]
  exact listed_iff_alive tidy ascii

/-- Behind an opening bracket, the mask and the state machine agree on the opening brace. -/
theorem allowedTokens_iff_advance_array :
    Reachable (new.advance ('[').val).2 ∧ (new.advance ('[').val).2.diverges '{' = false ∧
      ((∃ mask, (new.advance ('[').val).2.allowedTokens [91] 128 = some mask ∧ mask[('{').toNat]? = some true) ↔
        ((new.advance ('[').val).2.advance ('{').val).1 = true) := by
  have reachable : Reachable (new.advance ('[').val).2 := .advance '[' .new (by decide)
  have outside : (new.advance ('[').val).2.diverges '{' = false := by decide
  exact ⟨reachable, outside, (allowedTokens_iff_advance reachable (by decide) (by decide) [91]).mpr outside⟩

/-- The mask forbids the closing bracket of an empty array, which the state machine accepts. -/
theorem emptyArray_masked : ¬ ∀ machine, Reachable machine → ∀ ch : Char, ch.toNat < 128 → ∀ vocabSize,
    ch.toNat < vocabSize → ∀ generated,
      ((∃ mask, machine.allowedTokens generated vocabSize = some mask ∧ mask[ch.toNat]? = some true) ↔
        (machine.advance ch.val).1 = true) := by
  intro agrees
  have reachable : Reachable (new.advance ('[').val).2 := .advance '[' .new (by decide)
  obtain ⟨mask, known, marked⟩ :=
    (agrees _ reachable ']' (by decide) 128 (by decide) []).mpr (by decide)
  have computed : ((new.advance ('[').val).2.allowedTokens [] 128).bind (·[(']').toNat]?) = some false := by decide
  rw [known] at computed
  rw [Option.bind_some, marked] at computed
  cases computed

end Pictor.JsonConstraint
