import Mathlib.Data.List.TakeWhile
import Pictor.Proof.Grammar.RegexParse

namespace Pictor.RegexParser
open List

open Outcome

variable {input : List UInt8} {pos : Nat} {text rest : List UInt8}

/-- A text is what the input has behind a position. -/
def At (input : List UInt8) (pos : Nat) (text : List UInt8) : Prop := input.drop pos = text ∧ pos ≤ input.length

theorem At.peek (here : At input pos text) (offset : Nat) : peek input (pos + offset) = text[offset]? := by
  rw [RegexParser.peek, ← here.1, getElem?_drop]

theorem At.peek_zero (here : At input pos text) : RegexParser.peek input pos = text[0]? := here.peek 0

theorem At.skip {front : List UInt8} (here : At input pos (front ++ rest)) : At input (pos + front.length) rest := by
  have length := congrArg List.length here.1
  rw [length_drop, length_append] at length
  have inside := here.2
  refine ⟨?_, by omega⟩
  rw [← drop_drop, here.1, drop_left]

variable {b : UInt8} {set : ByteSet} {first : Bool} {fuel n : Nat} {digits : List UInt8} {node : RegexNode}

theorem At.next (here : At input pos (b :: rest)) : At input (pos + 1) rest :=
  @At.skip _ _ _ [b] here

theorem At.lt (here : At input pos (b :: rest)) : pos < input.length := here.next.2

theorem At.cons {b : UInt8} (here : At input pos text) (found : RegexParser.peek input pos = some b) :
    text = b :: text.tail ∧ At input (pos + 1) text.tail := by
  rw [here.peek_zero] at found
  cases text with
  | nil => cases found
  | cons c text =>
      cases found
      exact ⟨rfl, here.next⟩

theorem At.zero (input : List UInt8) : At input 0 input := ⟨rfl, Nat.zero_le _⟩

theorem two_of_getElem? {a : UInt8} (first : text[0]? = some a) (second : text[1]? = some b) :
    ∃ tail, text = a :: b :: tail := by
  match text, first, second with
  | _ :: _ :: tail, rfl, rfl => exact ⟨tail, rfl⟩

/-- The escapes of the parser are those of the grammar. -/
theorem parseEscapeToSet_known (known : escapeSet b = some set) (here : At input pos (b :: rest)) :
    parseEscapeToSet input pos = pure (set, pos + 1) := by
  rw [parseEscapeToSet, here.peek_zero]
  rw [escapeSet.eq_def] at known
  simp only [getElem?_cons_zero]
  split at known
  all_goals try
    cases known
    rfl
  split at known
  · rename_i escapable
    cases known
    split
    · contradiction
    all_goals simp_all
  · cases known

theorem parseEscapeToSet_yields (here : At input pos text) : Yields (parseEscapeToSet input pos) fun result =>
      ∃ b rest, text = b :: rest ∧ escapeSet b = some result.1 ∧ result.2 = pos + 1 := by
  rw [parseEscapeToSet]
  cases found : peek input pos with
  | none => apply Yields.throw
  | some b =>
      obtain ⟨same, _⟩ := here.cons found
      have known {set : ByteSet} (escape : escapeSet b = some set) :
          Yields (pure (set, pos + 1) : RegexParse _) fun result =>
            ∃ b rest, text = b :: rest ∧ escapeSet b = some result.1 ∧ result.2 = pos + 1 :=
        Yields.pure ⟨b, text.tail, same, escape, rfl⟩
      split
      · contradiction
      all_goals try
        rename_i here'
        cases here'
        exact known rfl
      rename_i _ ne₁ ne₂ ne₃ ne₄ ne₅ ne₆ ne₇ ne₈ ne₉ here'
      cases here'
      split
      · rename_i escapable
        apply known
        rw [escapeSet.eq_def]
        split
        all_goals first
          | contradiction
          | exact if_pos escapable
      · split
        · apply Yields.throw
        · split <;> apply Yields.throw

/-- The parser reads the members of a class. -/
theorem parseClassItems_known {result : ByteSet} (members : ClassMembers first set text rest result)
    (here : At input pos text) (enough : input.length < fuel + pos) (positive : 0 < fuel) :
    ∃ pos', At input pos' rest ∧ pos < pos' ∧ parseClassItems input fuel set first pos = pure (result, pos') := by
  induction members generalizing fuel pos with
  | close =>
      obtain ⟨fuel, rfl⟩ := Nat.exists_eq_add_one.mpr positive
      refine ⟨pos + 1, here.next, Nat.lt_succ_self _, ?_⟩
      rw [parseClassItems, here.peek_zero]
      rfl
  | @escape first set escaped result b text rest known _ ih =>
      obtain ⟨fuel, rfl⟩ := Nat.exists_eq_add_one.mpr positive
      have last := here.next.lt
      obtain ⟨pos', after, later, run⟩ := @ih (pos + 1 + 1) fuel here.next.next (by omega) (by omega)
      refine ⟨pos', after, by omega, ?_⟩
      rw [parseClassItems, here.peek_zero]
      simp only [getElem?_cons_zero]
      rw [if_neg (fun closed => absurd closed.1 (by decide)), if_pos trivial, parseEscapeToSet_known known here.next,
        pure_bind]
      exact run
  | @range first set result b last text rest bracket backslash open' ordered _ ih =>
      obtain ⟨fuel, rfl⟩ := Nat.exists_eq_add_one.mpr positive
      have inside := here.next.next.lt
      obtain ⟨pos', after, later, run⟩ := @ih (pos + 1 + 1 + 1) fuel here.next.next.next (by omega) (by omega)
      have dash := here.peek 1
      have end' := here.peek 2
      refine ⟨pos', after, by omega, ?_⟩
      rw [parseClassItems, here.peek_zero]
      simp only [getElem?_cons_zero, getElem?_cons_succ] at dash end' ⊢
      rw [if_neg (by rintro ⟨same, other⟩; rw [bracket same] at other; cases other), if_neg backslash,
        if_pos ⟨dash, by rw [end']; simpa using open'⟩, end']
      dsimp only
      rw [if_neg (UInt8.not_lt.mpr ordered)]
      exact run
  | @single first set result b text rest bracket backslash alone _ ih =>
      obtain ⟨fuel, rfl⟩ := Nat.exists_eq_add_one.mpr positive
      have inside := here.lt
      obtain ⟨pos', after, later, run⟩ := @ih (pos + 1) fuel here.next (by omega) (by omega)
      have dash := here.peek 1
      have end' := here.peek 2
      refine ⟨pos', after, by omega, ?_⟩
      rw [parseClassItems, here.peek_zero]
      simp only [getElem?_cons_zero, getElem?_cons_succ] at dash end' ⊢
      rw [if_neg (by rintro ⟨same, other⟩; rw [bracket same] at other; cases other), if_neg backslash, if_neg]
      · exact run
      · rintro ⟨is, isNot⟩
        rw [dash] at is
        rw [end'] at isNot
        exact isNot (alone is)

/-- What the parser reads in a class are members of the grammar. -/
theorem parseClassItems_yields (fuel : Nat) (here : At input pos text) :
    Yields (parseClassItems input fuel set first pos) fun result =>
      ∃ rest, At input result.2 rest ∧ ClassMembers first set text rest result.1 := by
  induction fuel generalizing set first pos text with
  | zero => exact nofun
  | succ fuel ih =>
      rw [parseClassItems]
      split
      · apply Yields.throw
      · rename_i b found
        obtain ⟨same, next⟩ := here.cons found
        split
        · rename_i closed
          obtain ⟨rfl, rfl⟩ := closed
          apply Yields.pure
          refine ⟨text.tail, next, ?_⟩
          rw [same]
          exact .close
        · rename_i open'
          have bracket (is : b = 93) : first = true := by
            cases first with
            | true => rfl
            | false => exact absurd ⟨is, rfl⟩ open'
          split
          · rename_i slash
            subst slash
            refine Yields.bind (parseEscapeToSet_yields next) ?_
            rintro ⟨escaped, pos'⟩ ⟨b, rest, text', known, rfl⟩
            rw [text'] at next
            refine Yields.mono (ih next.next) ?_
            rintro result ⟨rest', after, members⟩
            refine ⟨rest', after, ?_⟩
            rw [same, text']
            exact .escape known members
          · rename_i backslash
            have dash := here.peek 1
            have end' := here.peek 2
            rw [same] at dash end'
            rw [getElem?_cons_succ] at dash end'
            rw [dash, end']
            split
            · rename_i ranged
              split
              · rename_i last found'
                obtain ⟨tail, parts⟩ := two_of_getElem? ranged.1 found'
                split
                · apply Yields.throw
                · rename_i ordered
                  rw [parts] at next
                  refine Yields.mono (ih next.next.next) ?_
                  rintro result ⟨rest', after, members⟩
                  refine ⟨rest', after, ?_⟩
                  rw [same, parts]
                  refine .range bracket backslash ?_ (UInt8.not_lt.mp ordered) members
                  rintro rfl
                  exact ranged.2 found'
              · apply Yields.throw
            · rename_i alone
              refine Yields.mono (ih next) ?_
              rintro result ⟨rest', after, members⟩
              refine ⟨rest', after, ?_⟩
              rw [same]
              refine .single bracket backslash (fun is => ?_) members
              by_contra isNot
              exact alone ⟨is, isNot⟩

theorem parseCharClass_known (form : ClassText text rest set) (here : At input pos text) :
    ∃ pos', At input pos' rest ∧ pos < pos' ∧ parseCharClass input pos = pure (.byteClass set, pos') := by
  cases form with
  | negated members =>
      have enough : input.length < (input.length + 1) + (pos + 1) := by omega
      obtain ⟨pos', after, later, run⟩ := parseClassItems_known members here.next enough (Nat.succ_pos _)
      refine ⟨pos', after, by omega, ?_⟩
      rw [parseCharClass, here.peek_zero]
      simp only [getElem?_cons_zero, if_true, run, pure_bind]
  | plain positive members =>
      have enough : input.length < (input.length + 1) + pos := by omega
      obtain ⟨pos', after, later, run⟩ := parseClassItems_known members here enough (Nat.succ_pos _)
      refine ⟨pos', after, by omega, ?_⟩
      rw [parseCharClass, here.peek_zero, if_neg positive, run, pure_bind]

theorem parseCharClass_yields (here : At input pos text) : Yields (parseCharClass input pos) fun result =>
      ∃ set rest, result.1 = .byteClass set ∧ At input result.2 rest ∧ ClassText text rest set := by
  rw [parseCharClass]
  split
  · rename_i found
    obtain ⟨same, next⟩ := here.cons found
    refine Yields.bind (parseClassItems_yields _ next) ?_
    rintro ⟨set, pos'⟩ ⟨rest, after, members⟩
    refine Yields.pure ⟨_, rest, rfl, after, ?_⟩
    rw [same]
    exact .negated members
  · rename_i other
    rw [here.peek_zero] at other
    refine Yields.bind (parseClassItems_yields _ here) ?_
    rintro ⟨set, pos'⟩ ⟨rest, after, members⟩
    exact Yields.pure ⟨_, rest, rfl, after, .plain other members⟩

/-- The rest of a class is unique. -/
theorem classText_unique {rest' : List UInt8} {set' : ByteSet} (form : ClassText text rest set)
    (form' : ClassText text rest' set') : rest = rest' := by
  obtain ⟨pos, after, _, run⟩ := parseCharClass_known form (At.zero text)
  obtain ⟨pos', after', _, run'⟩ := parseCharClass_known form' (At.zero text)
  rw [run] at run'
  have same : pos = pos' := congrArg Prod.snd (Except.ok.inj (Option.some.inj run'))
  rw [← after.1, ← after'.1, same]

theorem takeWhile_digits (each : ∀ b ∈ digits, isDigit b = true) (ends : ∀ b, rest[0]? = some b → isDigit b = false) :
    (digits ++ rest).takeWhile isDigit = digits := by
  induction digits with
  | nil =>
      cases rest with
      | nil => rfl
      | cons b rest => rw [nil_append, takeWhile_cons_of_neg (by rw [ends b rfl]; decide)]
  | cons b digits ih =>
      rw [forall_mem_cons] at each
      rw [cons_append, takeWhile_cons_of_pos each.1, ih each.2]

theorem parseDecimalNumber_known (number : NumberText digits n) (small : n < 2 ^ 64)
    (ends : ∀ b, rest[0]? = some b → isDigit b = false) (here : At input pos (digits ++ rest)) :
    parseDecimalNumber input pos = pure (n, pos + digits.length) := by
  obtain ⟨some, each, value⟩ := number
  rw [parseDecimalNumber, here.1]
  rw [takeWhile_digits each ends, if_neg some, ← value, if_neg (Nat.not_le.mpr small)]

theorem parseDecimalNumber_yields (here : At input pos text) :
    Yields (parseDecimalNumber input pos) fun result => ∃ digits rest, text = digits ++ rest ∧
      NumberText digits result.1 ∧ At input result.2 rest := by
  rw [parseDecimalNumber, here.1]
  split
  · apply Yields.throw
  · rename_i some
    split
    · apply Yields.throw
    · have parts := (takeWhile_append_dropWhile (p := isDigit) (l := text)).symm
      rw [parts] at here
      refine Yields.pure ⟨_, _, parts, ⟨some, fun b member => mem_takeWhile_imp member, rfl⟩, here.skip⟩

theorem expect_known (here : At input pos (b :: rest)) : expect input b pos = pure (pos + 1) := by
  rw [expect, here.peek_zero]
  exact if_pos rfl

theorem expect_yields (b : UInt8) (here : At input pos text) :
    Yields (expect input b pos) fun pos' => ∃ rest, text = b :: rest ∧ At input pos' rest := by
  rw [expect]
  split
  · rename_i found
    obtain ⟨same, next⟩ := here.cons found
    split
    · rename_i is
      rw [is] at same
      exact Yields.pure ⟨_, same, next⟩
    · apply Yields.throw
  · apply Yields.throw

theorem small_of_le (bound : n ≤ maxRepetition) : n < 2 ^ 64 := Nat.lt_of_le_of_lt bound (by decide)

/-- A quantifier of the grammar is read behind its atom. -/
theorem parseQuantifier_known {node' : RegexNode} (quantified : Quantified node node' text rest)
    (here : At input pos text) :
    ∃ pos', At input pos' rest ∧ pos ≤ pos' ∧ parseQuantifier input node pos = pure (node', pos') := by
  have close (b : UInt8) (tail : List UInt8) (is : b = 125 ∨ b = 44) :
      ∀ c, (b :: tail)[0]? = some c → isDigit c = false := by
    rintro c ⟨⟩
    rcases is with rfl | rfl <;> rfl
  cases quantified with
  | once alone =>
      refine ⟨pos, here, Nat.le_refl _, ?_⟩
      rw [parseQuantifier, here.peek_zero]
      split
      · rename_i found
        exact absurd (alone _ found).1 (by decide)
      · rename_i found
        exact absurd (alone _ found).1 (by decide)
      · rename_i found
        exact absurd (alone _ found).1 (by decide)
      · rename_i found
        exact absurd rfl (alone _ found).2
      · rfl
  | star => exact ⟨_, here.next, Nat.le_succ _, by rw [parseQuantifier, here.peek_zero]; rfl⟩
  | plus => exact ⟨_, here.next, Nat.le_succ _, by rw [parseQuantifier, here.peek_zero]; rfl⟩
  | optional => exact ⟨_, here.next, Nat.le_succ _, by rw [parseQuantifier, here.peek_zero]; rfl⟩
  | @exact digits rest n number bound =>
      have after := here.next.skip
      refine ⟨_, after.next, by omega, ?_⟩
      rw [parseQuantifier, here.peek_zero]
      change parseCountedQuantifier input node pos = _
      rw [parseCountedQuantifier, parseDecimalNumber_known number (small_of_le bound) (close 125 rest (Or.inl rfl)) here.next,
        pure_bind]
      dsimp only
      rw [after.peek_zero]
      exact if_neg (Nat.not_lt.mpr bound)
  | @atLeast digits rest n number bound =>
      have after := here.next.skip
      refine ⟨_, after.next.next, by omega, ?_⟩
      rw [parseQuantifier, here.peek_zero]
      change parseCountedQuantifier input node pos = _
      rw [parseCountedQuantifier, parseDecimalNumber_known number (small_of_le bound) (close 44 _ (Or.inr rfl)) here.next,
        pure_bind]
      dsimp only
      rw [after.peek_zero, after.peek 1]
      exact if_neg (Nat.not_lt.mpr bound)
  | @between low high rest n m number number' ordered bound =>
      have after := here.next.skip
      have last := after.next.skip
      refine ⟨_, last.next, by omega, ?_⟩
      have small : n ≤ maxRepetition := Nat.le_trans ordered bound
      rw [parseQuantifier, here.peek_zero]
      change parseCountedQuantifier input node pos = _
      rw [parseCountedQuantifier, parseDecimalNumber_known number (small_of_le small) (close 44 _ (Or.inr rfl)) here.next,
        pure_bind]
      dsimp only
      have other : (high ++ 125 :: rest)[0]? ≠ some 125 := by
        obtain ⟨some, each, _⟩ := number'
        obtain ⟨d, high, rfl⟩ := exists_cons_of_ne_nil some
        have digit := each d mem_cons_self
        rintro ⟨⟩
        cases digit
      have next := after.peek 1
      rw [getElem?_cons_succ] at next
      have comma : peek input (pos + 1 + low.length) = some 44 := by
        rw [after.peek_zero]
        rfl
      split
      · rename_i found
        exact absurd (Option.some.inj (found.symm.trans comma)) (by decide)
      · split
        · rename_i found
          exact absurd (next.symm.trans found) other
        · rw [parseDecimalNumber_known number' (small_of_le bound) (close 125 rest (Or.inl rfl)) after.next, pure_bind]
          dsimp only
          rw [expect_known last, pure_bind, if_neg (Nat.not_lt.mpr ordered), if_neg (Nat.not_lt.mpr bound)]
      · rename_i ne found
        exact absurd (Option.some.inj (found.symm.trans comma)) ne
      · rename_i found
        exact absurd (found.symm.trans comma) (Option.some_ne_none 44).symm

/-- What the parser reads behind an atom is a quantifier of the grammar. -/
theorem parseQuantifier_yields (here : At input pos text) : Yields (parseQuantifier input node pos) fun result =>
      ∃ rest, At input result.2 rest ∧ Quantified node result.1 text rest := by
  have counted (found : peek input pos = some 123) : Yields (parseCountedQuantifier input node pos) fun result =>
      ∃ rest, At input result.2 rest ∧ Quantified node result.1 text rest := by
    obtain ⟨same, next⟩ := here.cons found
    rw [same, parseCountedQuantifier]
    refine Yields.bind (parseDecimalNumber_yields next) ?_
    rintro ⟨n, pos₁⟩ ⟨digits, rest, parts, number, after⟩
    rw [parts]
    dsimp only at number after ⊢
    split
    · rename_i found'
      obtain ⟨same', next'⟩ := after.cons found'
      split
      · apply Yields.throw
      · rename_i bound
        rw [same']
        exact Yields.pure ⟨_, next', .exact number (Nat.le_of_not_lt bound)⟩
    · rename_i found'
      obtain ⟨same', next'⟩ := after.cons found'
      rw [same']
      split
      · rename_i found''
        obtain ⟨same'', next''⟩ := next'.cons found''
        split
        · apply Yields.throw
        · rename_i bound
          rw [same'']
          exact Yields.pure ⟨_, next'', .atLeast number (Nat.le_of_not_lt bound)⟩
      · refine Yields.bind (parseDecimalNumber_yields next') ?_
        rintro ⟨m, pos₂⟩ ⟨high, rest', parts', number', after'⟩
        dsimp only at number' after' ⊢
        refine Yields.bind (expect_yields 125 after') ?_
        rintro pos₃ ⟨rest'', last, behind⟩
        split
        · apply Yields.throw
        · rename_i ordered
          split
          · apply Yields.throw
          · rename_i bound
            rw [parts', last]
            exact Yields.pure ⟨_, behind, .between number number' (Nat.le_of_not_lt ordered) (Nat.le_of_not_lt bound)⟩
    · apply Yields.throw
    · apply Yields.throw
  rw [parseQuantifier]
  split
  · rename_i found
    obtain ⟨same, next⟩ := here.cons found
    rw [same]
    exact Yields.pure ⟨_, next, .star⟩
  · rename_i found
    obtain ⟨same, next⟩ := here.cons found
    rw [same]
    exact Yields.pure ⟨_, next, .plus⟩
  · rename_i found
    obtain ⟨same, next⟩ := here.cons found
    rw [same]
    exact Yields.pure ⟨_, next, .optional⟩
  · rename_i found
    exact counted found
  · rename_i star plus optional brace
    refine Yields.pure ⟨text, here, .once fun b first => ?_⟩
    rw [here.peek_zero, first] at star plus optional brace
    refine ⟨?_, fun same => brace (congrArg some same)⟩
    rw [isQuantifier]
    simp only [Bool.or_eq_false_iff, decide_eq_false_iff_not]
    exact ⟨⟨fun same => star (congrArg some same), fun same => plus (congrArg some same)⟩,
      fun same => optional (congrArg some same)⟩

/-- The prefix of a group is empty or marks the group as silent. -/
theorem groupPrefix_yields (here : At input pos text) :
    Yields (groupPrefix input pos) fun pos' => (text[0]? ≠ some 63 ∧ pos' = pos) ∨
      ∃ rest, text = 63 :: 58 :: rest ∧ At input pos' rest := by
  rw [groupPrefix]
  split
  · rename_i found
    obtain ⟨same, next⟩ := here.cons found
    split
    · apply Yields.throw
    · apply Yields.throw
    · split <;> apply Yields.throw
    · apply Yields.throw
    · rename_i found'
      obtain ⟨same', next'⟩ := next.cons found'
      refine Yields.pure (Or.inr ⟨_, ?_, next'⟩)
      rw [← same']
      exact same
    · apply Yields.throw
  · rename_i other
    rw [here.peek_zero] at other
    exact Yields.pure (Or.inl ⟨other, rfl⟩)

/-- The result of a call is a part of the grammar. -/
def Forms (input : List UInt8) (part : RegexPart) (pos pos' : Nat) : Prop :=
  ∀ text, At input pos text → ∃ stray rest, At input pos' rest ∧ RegexForm part stray text rest

/-- Every call of the recursive descent reads a part of the grammar. -/
structure ReadsForms (input : List UInt8) (fuel : Nat) : Prop where
  alternation : ∀ pos, Yields (parseAlternation input fuel pos) fun result =>
    Forms input (.alternation result.1) pos result.2
  branches : ∀ before pos, Yields (parseBranches input fuel before pos) fun result =>
    ∃ others, result.1 = before ++ others ∧ Forms input (.branches others) pos result.2
  concat : ∀ pos, Yields (parseConcat input fuel pos) fun result => Forms input (.concat result.1) pos result.2
  atoms : ∀ before pos, Yields (parseAtoms input fuel before pos) fun result =>
    ∃ nodes, result.1 = before ++ nodes ∧ Forms input (.atoms nodes) pos result.2
  item : ∀ pos, (∀ text, At input pos text → endsAtoms text[0]? = false) →
    Yields (parseQuantifiedAtom input fuel pos) fun result => Forms input (.item result.1) pos result.2
  atom : ∀ pos, (∀ text, At input pos text → endsAtoms text[0]? = false) →
    Yields (parseAtom input fuel pos) fun result => Forms input (.atom result.1) pos result.2
  group : ∀ pos, Yields (parseGroup input fuel pos) fun result => ∀ text, At input pos text →
    ∃ stray rest, At input result.2 rest ∧ RegexForm (.atom result.1) stray (40 :: text) rest

theorem pushAtom_eq (atoms : List RegexNode) (atom : RegexNode) (nodes : List RegexNode) :
    pushAtom atoms atom ++ nodes = atoms ++ keepAtom atom nodes := by
  cases atom with
  | empty => rfl
  | _ => exact append_assoc _ _ _

theorem yields_outOfFuel {Result : Type} {good : Result → Prop} : Yields (outOfFuel : RegexParse Result) good := nofun

/-- The recursive descent reads the grammar. The induction is on the fuel, for all functions at once. -/
theorem readsForms (fuel : Nat) : ReadsForms input fuel := by
  induction fuel with
  | zero =>
      constructor
      all_goals
        intros
        first
          | rw [parseAlternation]
          | rw [parseBranches]
          | rw [parseConcat]
          | rw [parseAtoms]
          | rw [parseQuantifiedAtom]
          | rw [parseAtom]
          | rw [parseGroup]
        exact yields_outOfFuel
  | succ fuel ih =>
      constructor
      case alternation =>
        intro pos
        rw [parseAlternation]
        refine Yields.bind (ih.concat pos) ?_
        rintro ⟨first, pos₁⟩ concat
        refine Yields.bind (ih.branches [first] pos₁) ?_
        rintro ⟨branches, pos₂⟩ ⟨others, same, branches'⟩
        dsimp only at same branches' concat
        subst same
        refine Yields.pure fun text here => ?_
        obtain ⟨stray, middle, after, form⟩ := concat text here
        obtain ⟨stray', rest, after', form'⟩ := branches' middle after
        exact ⟨_, rest, after', .alternation form form'⟩
      case branches =>
        intro before pos
        rw [parseBranches]
        split
        · rename_i found
          refine Yields.bind (ih.concat (pos + 1)) ?_
          rintro ⟨branch, pos₁⟩ concat
          refine Yields.mono (ih.branches (before ++ [branch]) pos₁) ?_
          rintro ⟨branches, pos₂⟩ ⟨others, same, branches'⟩
          dsimp only at same branches' concat ⊢
          refine ⟨branch :: others, by rw [same, append_assoc, singleton_append], fun text here => ?_⟩
          obtain ⟨bar, next⟩ := here.cons found
          obtain ⟨stray, middle, after, form⟩ := concat _ next
          obtain ⟨stray', rest, after', form'⟩ := branches' middle after
          rw [bar]
          exact ⟨_, rest, after', .nextBranch form form'⟩
        · rename_i other
          refine Yields.pure ⟨[], (append_nil _).symm, fun text here => ⟨false, text, here, .lastBranch ?_⟩⟩
          rw [← here.peek_zero]
          exact other
      case concat =>
        intro pos
        rw [parseConcat]
        refine Yields.bind (ih.atoms [] pos) ?_
        rintro ⟨atoms, pos₁⟩ ⟨nodes, same, form⟩
        dsimp only at same form
        rw [nil_append] at same
        subst same
        refine Yields.pure fun text here => ?_
        obtain ⟨stray, rest, after, form⟩ := form text here
        exact ⟨stray, rest, after, .concat form⟩
      case atoms =>
        intro before pos
        have finished (ends : endsAtoms (peek input pos) = true) :
            Yields (pure (before, pos) : RegexParse _) fun result =>
              ∃ nodes, result.1 = before ++ nodes ∧ Forms input (.atoms nodes) pos result.2 := by
          refine Yields.pure ⟨[], (append_nil _).symm, fun text here => ⟨false, text, here, .lastAtom ?_⟩⟩
          rw [← here.peek_zero]
          exact ends
        rw [parseAtoms]
        split
        · rename_i found
          exact finished (by rw [found]; rfl)
        · rename_i found
          exact finished (by rw [found]; rfl)
        · rename_i found
          exact finished (by rw [found]; rfl)
        · rename_i b close bar found
          have going (text : List UInt8) (here : At input pos text) : endsAtoms text[0]? = false := by
            rw [← here.peek_zero, found, endsAtoms]
            simp only [Bool.or_eq_false_iff, decide_eq_false_iff_not]
            exact ⟨fun same => close same, fun same => bar same⟩
          refine Yields.bind (ih.item pos going) ?_
          rintro ⟨atom, pos₁⟩ item
          refine Yields.mono (ih.atoms (pushAtom before atom) pos₁) ?_
          rintro ⟨atoms, pos₂⟩ ⟨nodes, same, form⟩
          dsimp only at same form item ⊢
          rw [pushAtom_eq] at same
          refine ⟨_, same, fun text here => ?_⟩
          obtain ⟨stray, middle, after, form'⟩ := item text here
          obtain ⟨stray', rest, after', form⟩ := form middle after
          exact ⟨_, rest, after', .nextAtom (going text here) form' form⟩
      case item =>
        intro pos going
        rw [parseQuantifiedAtom]
        refine Yields.bind (ih.atom pos going) ?_
        rintro ⟨atom, pos₁⟩ atom'
        intro result run text here
        obtain ⟨stray, middle, after, form⟩ := atom' text here
        obtain ⟨rest, after', quantified⟩ := parseQuantifier_yields after result run
        exact ⟨stray, rest, after', .item form quantified⟩
      case atom =>
        intro pos going
        have one {node : RegexNode} {stray : Bool} {b : UInt8} (found : peek input pos = some b)
            (form : ∀ rest, RegexForm (.atom node) stray (b :: rest) rest) :
            Yields (pure (node, pos + 1) : RegexParse _) fun result => Forms input (.atom result.1) pos result.2 := by
          refine Yields.pure fun text here => ?_
          obtain ⟨same, next⟩ := here.cons found
          rw [same]
          exact ⟨stray, _, next, form _⟩
        rw [parseAtom]
        split
        · rename_i found
          exact one found fun _ => .anchor (Or.inl rfl)
        · rename_i found
          exact one found fun _ => .anchor (Or.inr rfl)
        · rename_i found
          exact one found fun _ => .dot
        · rename_i found
          intro result run text here
          obtain ⟨same, next⟩ := here.cons found
          obtain ⟨set, rest, node, after, form⟩ := parseCharClass_yields next result run
          rw [same, node]
          exact ⟨false, rest, after, .bracket form⟩
        · rename_i found
          intro result run text here
          obtain ⟨same, next⟩ := here.cons found
          rw [same]
          exact ih.group (pos + 1) result run _ next
        · rename_i found
          rw [parseEscape]
          intro result run text here
          obtain ⟨same, next⟩ := here.cons found
          refine (Yields.bind (parseEscapeToSet_yields next) ?_ : Yields _ fun result =>
            ∃ stray rest, At input result.2 rest ∧ RegexForm (.atom result.1) stray text rest) result run
          rintro ⟨set, pos₁⟩ ⟨b, rest, parts, known, rfl⟩
          rw [parts] at next
          refine Yields.pure ⟨false, rest, next.next, ?_⟩
          rw [same, parts]
          exact .escape known
        · rename_i b caret dollar dot bracket paren slash found
          by_cases quantifier : isQuantifier b = true
          · exact one found fun _ => .stray quantifier
          · refine one found fun _ => .literal ?_ (Bool.eq_false_iff.mpr quantifier)
            rw [startsAtom]
            simp only [Bool.or_eq_false_iff, decide_eq_false_iff_not]
            exact ⟨⟨⟨⟨⟨fun same => caret same, fun same => dollar same⟩, fun same => dot same⟩,
              fun same => bracket same⟩, fun same => paren same⟩, fun same => slash same⟩
        · apply Yields.throw
      case group =>
        intro pos
        rw [parseGroup]
        intro result run text here
        refine (Yields.bind (groupPrefix_yields here) ?_ : Yields _ fun result =>
          ∃ stray rest, At input result.2 rest ∧ RegexForm (.atom result.1) stray (40 :: text) rest) result run
        intro pos₁ opened
        refine Yields.bind (ih.alternation pos₁) ?_
        rintro ⟨inner, pos₂⟩ form
        intro last run'
        dsimp only at form run'
        have closed {text₁ : List UInt8} (here₁ : At input pos₁ text₁) : ∃ stray rest, At input last.2 rest ∧
            last.1 = inner ∧ RegexForm (.alternation inner) stray text₁ (41 :: rest) := by
          obtain ⟨stray, middle, after, form⟩ := form text₁ here₁
          refine (Yields.bind (expect_yields 41 after) ?_ : Yields _ fun last => ∃ stray rest, At input last.2 rest ∧
            last.1 = inner ∧ RegexForm (.alternation inner) stray text₁ (41 :: rest)) last run'
          rintro pos₃ ⟨rest, rfl, behind⟩
          exact Yields.pure ⟨stray, rest, behind, rfl, form⟩
        rcases opened with ⟨other, rfl⟩ | ⟨rest, rfl, after⟩
        · obtain ⟨stray, rest, behind, same, form⟩ := closed here
          rw [same]
          exact ⟨stray, rest, behind, .group other form⟩
        · obtain ⟨stray, rest', behind, same, form⟩ := closed after
          rw [same]
          exact ⟨stray, rest', behind, .silentGroup form⟩

/-- The call for a part succeeds when the fuel covers six calls for each byte. -/
def Accepts (input : List UInt8) : RegexPart → List UInt8 → List UInt8 → Prop
  | .alternation node, text, rest => ∀ fuel pos, At input pos text → 6 * input.length + 3 ≤ fuel + 6 * pos →
      ∃ pos', At input pos' rest ∧ pos ≤ pos' ∧ parseAlternation input fuel pos = pure (node, pos')
  | .branches others, text, rest => ∀ before fuel pos, At input pos text → 6 * input.length + 2 ≤ fuel + 6 * pos →
      ∃ pos', At input pos' rest ∧ pos ≤ pos' ∧ parseBranches input fuel before pos = pure (before ++ others, pos')
  | .concat node, text, rest => ∀ fuel pos, At input pos text → 6 * input.length + 2 ≤ fuel + 6 * pos →
      ∃ pos', At input pos' rest ∧ pos ≤ pos' ∧ parseConcat input fuel pos = pure (node, pos')
  | .atoms nodes, text, rest => ∀ before fuel pos, At input pos text → 6 * input.length + 1 ≤ fuel + 6 * pos →
      ∃ pos', At input pos' rest ∧ pos ≤ pos' ∧ parseAtoms input fuel before pos = pure (before ++ nodes, pos')
  | .item node, text, rest => ∀ fuel pos, At input pos text → 6 * input.length ≤ fuel + 6 * pos →
      ∃ pos', At input pos' rest ∧ pos < pos' ∧ parseQuantifiedAtom input fuel pos = pure (node, pos')
  | .atom node, text, rest => ∀ fuel pos, At input pos text → 6 * input.length ≤ fuel + 1 + 6 * pos →
      ∃ pos', At input pos' rest ∧ pos < pos' ∧ parseAtom input fuel pos = pure (node, pos')

theorem groupPrefix_known (here : At input pos text) : (text[0]? ≠ some 63 → groupPrefix input pos = pure pos) ∧
      ∀ rest, text = 63 :: 58 :: rest → groupPrefix input pos = pure (pos + 2) := by
  constructor
  · intro other
    rw [groupPrefix, here.peek_zero, if_neg other]
  · rintro rest rfl
    rw [groupPrefix, here.peek_zero, here.peek 1]
    rfl

/-- A group succeeds when its inner alternation does. -/
theorem group_accepts {opened : Nat} (inner : Accepts input (.alternation node) text (41 :: rest))
    (start : groupPrefix input (pos + 1) = pure opened) (here : At input opened text) (later : pos < opened)
    (enough : 6 * input.length ≤ fuel + 2 + 6 * pos) :
    ∃ pos', At input pos' rest ∧ pos < pos' ∧ parseGroup input fuel (pos + 1) = pure (node, pos') := by
  have inside := here.2
  obtain ⟨fuel, rfl⟩ : ∃ smaller, fuel = smaller + 1 := Nat.exists_eq_add_one.mpr (by omega)
  obtain ⟨pos', after, more, run⟩ := inner fuel opened here (by omega)
  refine ⟨pos' + 1, after.next, by omega, ?_⟩
  rw [parseGroup, start, pure_bind, run, pure_bind]
  dsimp only
  rw [expect_known after, pure_bind]

theorem fuel_of_atom (here : At input pos (b :: rest)) (enough : 6 * input.length ≤ fuel + 1 + 6 * pos) :
    ∃ smaller, fuel = smaller + 1 := by
  have inside := here.lt
  exact Nat.exists_eq_add_one.mpr (by omega)

/-- A byte that starts nothing else is an atom. -/
theorem plain_accepts (plain : startsAtom b = false) :
    Accepts input (.atom (.byteClass (.single b))) (b :: rest) rest := by
  intro fuel pos here enough
  obtain ⟨fuel, rfl⟩ := fuel_of_atom here enough
  refine ⟨pos + 1, here.next, Nat.lt_succ_self _, ?_⟩
  rw [startsAtom] at plain
  simp only [Bool.or_eq_false_iff, decide_eq_false_iff_not] at plain
  obtain ⟨⟨⟨⟨⟨caret, dollar⟩, dot⟩, bracket⟩, paren⟩, slash⟩ := plain
  have found : peek input pos = some b := by
    rw [here.peek_zero]
    rfl
  rw [parseAtom, found]
  split
  · rename_i same
    exact absurd (Option.some.inj same) caret
  · rename_i same
    exact absurd (Option.some.inj same) dollar
  · rename_i same
    exact absurd (Option.some.inj same) dot
  · rename_i same
    exact absurd (Option.some.inj same) bracket
  · rename_i same
    exact absurd (Option.some.inj same) paren
  · rename_i same
    exact absurd (Option.some.inj same) slash
  · rename_i same
    rw [Option.some.inj same]
  · contradiction

/-- The parser accepts the grammar. The induction is on the grammar. -/
theorem accepts {part : RegexPart} {stray : Bool} (form : RegexForm part stray text rest) :
    Accepts input part text rest := by
  induction form with
  | alternation _ _ ih ih' =>
      intro fuel pos here enough
      have inside := here.2
      obtain ⟨fuel, rfl⟩ : ∃ smaller, fuel = smaller + 1 := Nat.exists_eq_add_one.mpr (by omega)
      obtain ⟨pos₁, after, later, run⟩ := ih fuel pos here (by omega)
      obtain ⟨pos₂, after', later', run'⟩ := ih' [_] fuel pos₁ after (by omega)
      refine ⟨pos₂, after', Nat.le_trans later later', ?_⟩
      rw [parseAlternation, run, pure_bind]
      dsimp only
      rw [run', pure_bind]
      rfl
  | lastBranch other =>
      intro before fuel pos here enough
      have inside := here.2
      obtain ⟨fuel, rfl⟩ : ∃ smaller, fuel = smaller + 1 := Nat.exists_eq_add_one.mpr (by omega)
      refine ⟨pos, here, Nat.le_refl _, ?_⟩
      rw [parseBranches, here.peek_zero, if_neg other, append_nil]
  | @nextBranch branch others _ _ _ _ _ _ _ ih ih' =>
      intro before fuel pos here enough
      have inside := here.lt
      obtain ⟨fuel, rfl⟩ : ∃ smaller, fuel = smaller + 1 := Nat.exists_eq_add_one.mpr (by omega)
      obtain ⟨pos₁, after, later, run⟩ := ih fuel (pos + 1) here.next (by omega)
      obtain ⟨pos₂, after', later', run'⟩ := ih' (before ++ [branch]) fuel pos₁ after (by omega)
      refine ⟨pos₂, after', by omega, ?_⟩
      rw [parseBranches, here.peek_zero]
      simp only [getElem?_cons_zero, if_true]
      rw [run, pure_bind]
      dsimp only
      rw [run', append_assoc, singleton_append]
  | concat _ ih =>
      intro fuel pos here enough
      have inside := here.2
      obtain ⟨fuel, rfl⟩ : ∃ smaller, fuel = smaller + 1 := Nat.exists_eq_add_one.mpr (by omega)
      obtain ⟨pos₁, after, later, run⟩ := ih [] fuel pos here (by omega)
      refine ⟨pos₁, after, later, ?_⟩
      rw [parseConcat, run, pure_bind]
      rfl
  | lastAtom ends =>
      intro before fuel pos here enough
      have inside := here.2
      obtain ⟨fuel, rfl⟩ : ∃ smaller, fuel = smaller + 1 := Nat.exists_eq_add_one.mpr (by omega)
      refine ⟨pos, here, Nat.le_refl _, ?_⟩
      rw [← here.peek_zero] at ends
      rw [parseAtoms, append_nil]
      split
      · rfl
      · rfl
      · rfl
      · rename_i b close bar found
        rw [found, endsAtoms, Bool.or_eq_true, decide_eq_true_eq, decide_eq_true_eq] at ends
        rcases ends with same | same
        · exact absurd same close
        · exact absurd same bar
  | @nextAtom node nodes _ _ _ _ _ going _ _ ih ih' =>
      intro before fuel pos here enough
      have inside := here.2
      obtain ⟨fuel, rfl⟩ : ∃ smaller, fuel = smaller + 1 := Nat.exists_eq_add_one.mpr (by omega)
      obtain ⟨pos₁, after, later, run⟩ := ih fuel pos here (by omega)
      obtain ⟨pos₂, after', later', run'⟩ := ih' (pushAtom before node) fuel pos₁ after (by omega)
      refine ⟨pos₂, after', by omega, ?_⟩
      rw [← here.peek_zero] at going
      rw [parseAtoms]
      split
      · rename_i found
        rw [found] at going
        cases going
      · rename_i found
        rw [found] at going
        cases going
      · rename_i found
        rw [found] at going
        cases going
      · rw [run, pure_bind]
        dsimp only
        rw [run', pushAtom_eq]
  | item _ quantified ih =>
      intro fuel pos here enough
      obtain ⟨_, reached, further, _⟩ := ih fuel pos here (by omega)
      have inside := reached.2
      obtain ⟨fuel, rfl⟩ : ∃ smaller, fuel = smaller + 1 := Nat.exists_eq_add_one.mpr (by omega)
      obtain ⟨pos₁, after, later, run⟩ := ih fuel pos here (by omega)
      obtain ⟨pos₂, after', later', run'⟩ := parseQuantifier_known quantified after
      refine ⟨pos₂, after', by omega, ?_⟩
      rw [parseQuantifiedAtom, run, pure_bind]
      exact run'
  | anchor either =>
      intro fuel pos here enough
      obtain ⟨fuel, rfl⟩ := fuel_of_atom here enough
      refine ⟨pos + 1, here.next, Nat.lt_succ_self _, ?_⟩
      rw [parseAtom, here.peek_zero]
      rcases either with rfl | rfl <;> rfl
  | dot =>
      intro fuel pos here enough
      obtain ⟨fuel, rfl⟩ := fuel_of_atom here enough
      refine ⟨pos + 1, here.next, Nat.lt_succ_self _, ?_⟩
      rw [parseAtom, here.peek_zero]
      rfl
  | bracket form =>
      intro fuel pos here enough
      obtain ⟨fuel, rfl⟩ := fuel_of_atom here enough
      obtain ⟨pos₁, after, later, run⟩ := parseCharClass_known form here.next
      refine ⟨pos₁, after, by omega, ?_⟩
      rw [parseAtom, here.peek_zero]
      exact run
  | escape known =>
      intro fuel pos here enough
      obtain ⟨fuel, rfl⟩ := fuel_of_atom here enough
      refine ⟨pos + 1 + 1, here.next.next, by omega, ?_⟩
      rw [parseAtom, here.peek_zero]
      change parseEscape input (pos + 1) = _
      rw [parseEscape, parseEscapeToSet_known known here.next, pure_bind]
  | group other _ ih =>
      intro fuel pos here enough
      obtain ⟨fuel, rfl⟩ := fuel_of_atom here enough
      obtain ⟨pos₁, after, later, run⟩ := group_accepts ih ((groupPrefix_known here.next).1 other) here.next
        (Nat.lt_succ_self pos) (by omega)
      refine ⟨pos₁, after, later, ?_⟩
      rw [parseAtom, here.peek_zero]
      exact run
  | silentGroup _ ih =>
      intro fuel pos here enough
      obtain ⟨fuel, rfl⟩ := fuel_of_atom here enough
      obtain ⟨pos₁, after, later, run⟩ := group_accepts ih ((groupPrefix_known here.next).2 _ rfl) here.next.next.next
        (by omega) (by omega)
      refine ⟨pos₁, after, later, ?_⟩
      rw [parseAtom, here.peek_zero]
      exact run
  | @literal b rest plain single => exact plain_accepts plain
  | @stray b rest quantifier =>
      refine plain_accepts ?_
      rw [isQuantifier, Bool.or_eq_true, Bool.or_eq_true, decide_eq_true_eq, decide_eq_true_eq,
        decide_eq_true_eq] at quantifier
      rcases quantifier with (rfl | rfl) | rfl <;> rfl

/-- The parser of a whole pattern succeeds at its end exactly when the pattern belongs to the grammar. -/
theorem parseAlternation_iff {pattern : List UInt8} :
    (parseAlternation pattern (parserFuel pattern) 0).run = some (.ok (node, pattern.length)) ↔
      ∃ stray, RegexForm (.alternation node) stray pattern [] := by
  constructor
  · intro run
    obtain ⟨stray, rest, after, form⟩ := (readsForms _).alternation 0 _ run pattern (At.zero pattern)
    have last : rest = [] := by
      rw [← after.1]
      exact drop_length
    subst last
    exact ⟨stray, form⟩
  · rintro ⟨stray, form⟩
    obtain ⟨pos, after, _, run⟩ := accepts form (parserFuel pattern) 0 (At.zero pattern) (Nat.le_refl _)
    have last : pos = pattern.length := Nat.le_antisymm after.2 (drop_eq_nil_iff.mp after.1)
    rw [run, last]
    rfl

end Pictor.RegexParser
