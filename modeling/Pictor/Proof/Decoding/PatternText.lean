import Mathlib.Computability.Language
import Pictor.Construction.Decoding.RegexConstraint

namespace Pictor.RegexNfa

/-- The words of one letter of a set. -/
def letters (set : Set Char) : Language Char := {word | ∃ ch ∈ set, word = [ch]}

def digitSet : Set Char := {ch | '0' ≤ ch ∧ ch ≤ '9'}

def wordSet : Set Char := {ch | ch = '_' ∨ ('a' ≤ ch ∧ ch ≤ 'z') ∨ ('A' ≤ ch ∧ ch ≤ 'Z') ∨ ('0' ≤ ch ∧ ch ≤ '9')}

def spaceSet : Set Char := {ch | ch = ' ' ∨ ch = '\t' ∨ ch = '\n' ∨ ch = '\r'}

/-- The characters of an escape. -/
def escapeSet : Char → Set Char
  | 'd' => digitSet
  | 'D' => digitSetᶜ
  | 'w' => wordSet
  | 'W' => wordSetᶜ
  | 's' => spaceSet
  | 'S' => spaceSetᶜ
  | 'n' => {'\n'}
  | 'r' => {'\r'}
  | 't' => {'\t'}
  | escaped => {escaped}

/-- The characters of an escape in a class, as the compiler reads them. -/
def classEscapeSet : Char → Set Char
  | 'd' => digitSet
  | 'w' => wordSet
  | 's' => spaceSet
  | escaped => {escaped}

/-- The members of a class up to its closing bracket. The compiler also ends a class at the end of the pattern. -/
inductive ClassMembers (scanned : Bool) : List Char → List Char → Set Char → Prop
  | close {rest : List Char} : ClassMembers scanned (']' :: rest) rest ∅
  | finish : scanned = true → ClassMembers scanned [] [] ∅
  | escape {ch : Char} {text rest : List Char} {set : Set Char} : ClassMembers scanned text rest set →
      ClassMembers scanned ('\\' :: ch :: text) rest ((if scanned then classEscapeSet ch else escapeSet ch) ∪ set)
  | range {ch last : Char} {text rest : List Char} {set : Set Char} : ch ≠ ']' → ch ≠ '\\' → last ≠ ']' →
      (scanned = false → last ≠ '\\') → ClassMembers scanned text rest set →
      ClassMembers scanned (ch :: '-' :: last :: text) rest ({other | ch ≤ other ∧ other ≤ last} ∪ set)
  | single {ch : Char} {text rest : List Char} {set : Set Char} : ch ≠ ']' →
      (ch = '\\' → scanned = true ∧ text = []) →
      (∀ last tail, text = '-' :: last :: tail → last = ']') → ClassMembers scanned text rest set →
      ClassMembers scanned (ch :: text) rest ({ch} ∪ set)

/-- The text behind an opening bracket. A documented class has a member. -/
inductive ClassText (scanned : Bool) : List Char → List Char → Set Char → Prop
  | negated {text rest : List Char} {set : Set Char} : (scanned = false → text[0]? ≠ some ']') →
      ClassMembers scanned text rest set → ClassText scanned ('^' :: text) rest setᶜ
  | plain {text rest : List Char} {set : Set Char} : text[0]? ≠ some '^' → (scanned = false → text[0]? ≠ some ']') →
      ClassMembers scanned text rest set → ClassText scanned text rest set

/-- A quantifier, or none if the text goes on with another character. -/
inductive Quantified (language : Language Char) : Language Char → List Char → List Char → Prop
  | once {text : List Char} : (∀ ch, text[0]? = some ch → isQuantifier ch = false) →
      Quantified language language text text
  | star {rest : List Char} : Quantified language (KStar.kstar language) ('*' :: rest) rest
  | plus {rest : List Char} : Quantified language (language * KStar.kstar language) ('+' :: rest) rest
  | optional {rest : List Char} : Quantified language (language + 1) ('?' :: rest) rest

/-- The text behind a group, found by a count of the parentheses. -/
def afterGroup : List Char → Nat → List Char
  | [], _ => []
  | '(' :: rest, depth => afterGroup rest (depth + 1)
  | ')' :: rest, depth => if depth = 1 then rest else afterGroup rest (depth - 1)
  | ['\\'], _ => []
  | '\\' :: _ :: rest, depth => afterGroup rest depth
  | _ :: rest, depth => afterGroup rest depth

/-- The characters in front of which a sequence ends. -/
def endsSequence : Option Char → Bool
  | none => true
  | some ch => ch = '|' || ch = ')'

/-- The characters with a meaning of their own at the place of an atom. -/
def special (ch : Char) : Bool :=
  isQuantifier ch || ch = '(' || ch = '[' || ch = '.' || ch = '\\' || ch = '|' || ch = ')'

/-- The parts of a pattern with their languages. -/
inductive PatternPart where
  | choice (language : Language Char)
  | sequence (language : Language Char)
  | atom (language : Language Char)

/-- A part of a pattern leads from a text to a rest. In the documented reading the group ends behind its
choice, and in the reading of the compiler it ends where the parentheses are even. -/
inductive PatternForm (scanned : Bool) : PatternPart → List Char → List Char → Prop
  | lastChoice {language : Language Char} {text rest : List Char} : rest[0]? ≠ some '|' →
      PatternForm scanned (.sequence language) text rest → PatternForm scanned (.choice language) text rest
  | nextChoice {language others : Language Char} {text middle rest : List Char} :
      PatternForm scanned (.sequence language) text ('|' :: middle) → PatternForm scanned (.choice others) middle rest →
      PatternForm scanned (.choice (language + others)) text rest
  | lastAtom {text : List Char} : endsSequence text[0]? = true → PatternForm scanned (.sequence 1) text text
  | nextAtom {atom item others : Language Char} {text middle behind rest : List Char} :
      endsSequence text[0]? = false → PatternForm scanned (.atom atom) text middle →
      Quantified atom item middle behind → PatternForm scanned (.sequence others) behind rest →
      PatternForm scanned (.sequence (item * others)) text rest
  | any {rest : List Char} : PatternForm scanned (.atom (letters Set.univ)) ('.' :: rest) rest
  | literal {ch : Char} {rest : List Char} : special ch = false →
      PatternForm scanned (.atom (letters {ch})) (ch :: rest) rest
  | escape {ch : Char} {rest : List Char} : PatternForm scanned (.atom (letters (escapeSet ch))) ('\\' :: ch :: rest) rest
  | bracket {set : Set Char} {text rest : List Char} : ClassText scanned text rest set →
      PatternForm scanned (.atom (letters set)) ('[' :: text) rest
  | group {language : Language Char} {text rest : List Char} : scanned = false →
      PatternForm scanned (.choice language) text (')' :: rest) → PatternForm scanned (.atom language) ('(' :: text) rest
  | counted {language : Language Char} {text rest : List Char} : scanned = true →
      PatternForm scanned (.choice language) text rest →
      PatternForm scanned (.atom language) ('(' :: text) (afterGroup text 1)

/-- The parentheses outside the classes and the escapes are balanced. The flag says that the text is in a class. -/
def balanced : Bool → Nat → List Char → Bool
  | _, depth, [] => depth = 0
  | _, depth, ['\\'] => depth = 0
  | inside, depth, '\\' :: _ :: rest => balanced inside depth rest
  | true, depth, ch :: rest => balanced (ch ≠ ']') depth rest
  | false, depth, '[' :: rest => balanced true depth rest
  | false, depth, '(' :: rest => balanced false (depth + 1) rest
  | false, depth, ')' :: rest => decide (depth ≠ 0) && balanced false (depth - 1) rest
  | false, depth, _ :: rest => balanced false depth rest

/-- The documented language of a pattern. -/
def Documented (pattern : List Char) (language : Language Char) : Prop :=
  PatternForm false (.choice language) pattern []

/-- The compiler reads a pattern up to its end or up to a closing parenthesis. -/
def Scanned (pattern : List Char) (language : Language Char) : Prop :=
  ∃ rest, PatternForm true (.choice language) pattern rest

/-- A pattern without a reading matches nothing. -/
def ReadsAs (pattern : List Char) (language : Language Char) : Prop :=
  Scanned pattern language ∨ (language = 0 ∧ ∀ other, ¬ Scanned pattern other)

end Pictor.RegexNfa

namespace Pictor.RegexNfa

/-- The escapes that stand for a letter in the reading of the classes. -/
def letterEscapes : List Char := ['D', 'W', 'S', 'n', 'r', 't']

/-- No class holds a parenthesis or an escape of a letter. The flag says that the text is in a class. -/
def plainClasses : Bool → List Char → Bool
  | _, [] => true
  | _, ['\\'] => true
  | inside, '\\' :: ch :: rest => !(inside && letterEscapes.contains ch) && plainClasses inside rest
  | true, ch :: rest => ch ≠ '(' && ch ≠ ')' && plainClasses (ch ≠ ']') rest
  | false, '[' :: rest => plainClasses true rest
  | false, _ :: rest => plainClasses false rest

variable {ch : Char} {text rest : List Char} {set : Set Char}

theorem afterGroup_cons (opening : ch ≠ '(') (close : ch ≠ ')') (backslash : ch ≠ '\\') (depth : Nat) :
    afterGroup (ch :: rest) depth = afterGroup rest depth := by
  rw [afterGroup]
  all_goals
    intros
    contradiction

theorem plainClasses_outside (backslash : ch ≠ '\\') (bracket : ch ≠ '[') :
    plainClasses false (ch :: rest) = plainClasses false rest := by
  rw [plainClasses]
  all_goals
    intros
    contradiction

theorem plainClasses_inside (backslash : ch ≠ '\\') : plainClasses true (ch :: rest) = true ↔
    (ch ≠ '(' ∧ ch ≠ ')') ∧ plainClasses (ch ≠ ']') rest = true := by
  rw [plainClasses]
  · simp
  all_goals
    intros
    contradiction

theorem classEscapeSet_eq (plain : letterEscapes.contains ch = false) : classEscapeSet ch = escapeSet ch := by
  rw [escapeSet.eq_def]
  split
  · rfl
  · cases plain
  · rfl
  · cases plain
  · rfl
  · cases plain
  · cases plain
  · cases plain
  · cases plain
  · rw [classEscapeSet]
    all_goals assumption

/-- A text leads to a rest: the scan goes on in the same way, and the rest is plain. -/
def Leads (inside : Bool) (text rest : List Char) : Prop :=
  plainClasses inside text = true → plainClasses false rest = true ∧
    ∀ depth, depth ≠ 0 → afterGroup text depth = afterGroup rest depth

/-- The compiler reads plain members as documented. -/
theorem plainMembers (members : ClassMembers false text rest set) (plain : plainClasses true text = true) :
    ClassMembers true text rest set ∧ Leads true text rest := by
  induction members with
  | close =>
      refine ⟨.close, fun plain => ⟨?_, fun depth _ => ?_⟩⟩
      · exact ((plainClasses_inside (by decide)).mp plain).2
      · exact afterGroup_cons (by decide) (by decide) (by decide) depth
  | finish wrong => cases wrong
  | @escape ch text rest set _ ih =>
      rw [plainClasses, Bool.and_eq_true, Bool.true_and, Bool.not_eq_true'] at plain
      obtain ⟨members, leads⟩ := ih plain.2
      have whole := @ClassMembers.escape true ch _ _ _ members
      rw [if_pos rfl, classEscapeSet_eq plain.1] at whole
      refine ⟨whole, fun _ => ⟨(leads plain.2).1, fun depth some => ?_⟩⟩
      rw [afterGroup]
      exact (leads plain.2).2 depth some
  | @range ch last text rest set notClosed backslash open' documented _ ih =>
      obtain ⟨⟨opening, close⟩, plain₁⟩ := (plainClasses_inside backslash).mp plain
      rw [decide_eq_true notClosed] at plain₁
      obtain ⟨_, plain₂⟩ := (plainClasses_inside (by decide)).mp plain₁
      rw [decide_eq_true (by decide)] at plain₂
      obtain ⟨⟨opening', close'⟩, plain₃⟩ := (plainClasses_inside (documented rfl)).mp plain₂
      rw [decide_eq_true open'] at plain₃
      obtain ⟨members, leads⟩ := ih plain₃
      refine ⟨.range notClosed backslash open' nofun members, fun _ => ⟨(leads plain₃).1, fun depth some => ?_⟩⟩
      rw [afterGroup_cons opening close backslash, afterGroup_cons (by decide) (by decide) (by decide),
        afterGroup_cons opening' close' (documented rfl)]
      exact (leads plain₃).2 depth some
  | @single ch text rest set notClosed alone noRange _ ih =>
      have backslash : ch ≠ '\\' := fun same => Bool.noConfusion (alone same).1
      obtain ⟨⟨opening, close⟩, plain₁⟩ := (plainClasses_inside backslash).mp plain
      rw [decide_eq_true notClosed] at plain₁
      obtain ⟨members, leads⟩ := ih plain₁
      refine ⟨.single notClosed (fun same => absurd same backslash) noRange members,
        fun _ => ⟨(leads plain₁).1, fun depth some => ?_⟩⟩
      rw [afterGroup_cons opening close backslash]
      exact (leads plain₁).2 depth some

theorem plainText (form : ClassText false text rest set) (plain : plainClasses true text = true) :
    ClassText true text rest set ∧ Leads true text rest := by
  cases form with
  | negated _ members =>
      have plain₁ := ((plainClasses_inside (by decide)).mp plain).2
      obtain ⟨members, leads⟩ := plainMembers members plain₁
      refine ⟨.negated nofun members, fun _ => ⟨(leads plain₁).1, fun depth some => ?_⟩⟩
      rw [afterGroup_cons (by decide) (by decide) (by decide)]
      exact (leads plain₁).2 depth some
  | plain other _ members =>
      obtain ⟨members, leads⟩ := plainMembers members plain
      exact ⟨.plain other nofun members, leads⟩

/-- One character without a meaning for the scans. -/
theorem leads_cons (opening : ch ≠ '(') (close : ch ≠ ')') (backslash : ch ≠ '\\') (bracket : ch ≠ '[') :
    Leads false (ch :: rest) rest := by
  intro plain
  rw [plainClasses_outside backslash bracket] at plain
  exact ⟨plain, fun depth _ => afterGroup_cons opening close backslash depth⟩

theorem Leads.trans {middle : List Char} (first : Leads false text middle) (second : Leads false middle rest) :
    Leads false text rest := by
  intro plain
  obtain ⟨plain', same⟩ := first plain
  obtain ⟨plain'', same'⟩ := second plain'
  exact ⟨plain'', fun depth some => (same depth some).trans (same' depth some)⟩

theorem Leads.refl (text : List Char) : Leads false text text := fun plain => ⟨plain, fun _ _ => rfl⟩

theorem quantified_leads {language language' : Language Char} (quantified : Quantified language language' text rest) :
    Leads false text rest := by
  cases quantified with
  | once => exact .refl _
  | star => exact leads_cons (by decide) (by decide) (by decide) (by decide)
  | plus => exact leads_cons (by decide) (by decide) (by decide) (by decide)
  | optional => exact leads_cons (by decide) (by decide) (by decide) (by decide)

/-- The compiler reads a plain part as documented. The induction is on the documented reading. -/
theorem plainForm {part : PatternPart} (form : PatternForm false part text rest) (plain : plainClasses false text = true) :
    PatternForm true part text rest ∧ Leads false text rest := by
  induction form with
  | lastChoice last _ ih =>
      obtain ⟨sequence, leads⟩ := ih plain
      exact ⟨.lastChoice last sequence, leads⟩
  | nextChoice _ _ ih ih' =>
      obtain ⟨sequence, leads⟩ := ih plain
      have bar := leads.trans (leads_cons (by decide) (by decide) (by decide) (by decide))
      obtain ⟨choice, leads'⟩ := ih' (bar plain).1
      exact ⟨.nextChoice sequence choice, bar.trans leads'⟩
  | lastAtom ends => exact ⟨.lastAtom ends, .refl _⟩
  | nextAtom going _ quantified _ ih ih' =>
      obtain ⟨atom, leads⟩ := ih plain
      have item := leads.trans (quantified_leads quantified)
      obtain ⟨sequence, leads'⟩ := ih' (item plain).1
      exact ⟨.nextAtom going atom quantified sequence, item.trans leads'⟩
  | any => exact ⟨.any, leads_cons (by decide) (by decide) (by decide) (by decide)⟩
  | literal single =>
      refine ⟨.literal single, ?_⟩
      simp only [special, Bool.or_eq_false_iff, decide_eq_false_iff_not] at single
      obtain ⟨⟨⟨⟨⟨⟨_, opening⟩, bracket⟩, _⟩, backslash⟩, _⟩, close⟩ := single
      exact leads_cons opening close backslash bracket
  | escape =>
      refine ⟨.escape, fun plain => ⟨?_, fun depth _ => ?_⟩⟩
      · rw [plainClasses, Bool.false_and, Bool.not_false, Bool.true_and] at plain
        exact plain
      · rw [afterGroup]
  | bracket form =>
      rw [plainClasses] at plain
      obtain ⟨form', leads⟩ := plainText form plain
      refine ⟨.bracket form', fun _ => ⟨(leads plain).1, fun depth some => ?_⟩⟩
      rw [afterGroup_cons (by decide) (by decide) (by decide)]
      exact (leads plain).2 depth some
  | @group language text rest _ _ ih =>
      rw [plainClasses_outside (by decide) (by decide)] at plain
      obtain ⟨choice, leads⟩ := ih plain
      obtain ⟨plain', same⟩ := leads plain
      have last : afterGroup text 1 = rest := by
        rw [same 1 (by decide), afterGroup, if_pos rfl]
      have counted := PatternForm.counted rfl choice
      rw [last] at counted
      rw [plainClasses_outside (by decide) (by decide)] at plain'
      refine ⟨counted, fun _ => ⟨plain', fun depth some => ?_⟩⟩
      rw [afterGroup, same (depth + 1) (by omega), afterGroup, if_neg (by omega), Nat.add_sub_cancel]
  | counted wrong => cases wrong

end Pictor.RegexNfa
