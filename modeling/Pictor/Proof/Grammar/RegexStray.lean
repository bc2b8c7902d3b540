import Pictor.Proof.Grammar.RegexExact
import Pictor.Proof.Grammar.RegexLimits
import Pictor.Proof.Grammar.RegexReads

namespace Pictor
open List

open Outcome RegexParser

variable {follows : Bool} {b : UInt8} {text rest : List UInt8}

/-- The first byte says where a pattern goes on. -/
theorem strayQuantifier_cons : StrayQuantifier follows (b :: rest) ↔
    (isQuantifier b = true ∧ (follows = true → StrayQuantifier false rest)) ∨ (b = 123 ∧ follows = true ∧
      ∃ inner tail, 125 ∉ inner ∧ rest = inner ++ 125 :: tail ∧ StrayQuantifier false tail) ∨
    (b = 123 ∧ follows = false ∧ StrayQuantifier true rest) ∨
    (b = 92 ∧ ∃ c tail, rest = c :: tail ∧ StrayQuantifier true tail) ∨
    (b = 91 ∧ ∃ set tail, ClassText rest tail set ∧ StrayQuantifier true tail) ∨
    (b = 40 ∧ ∃ tail, rest = 63 :: 58 :: tail ∧ StrayQuantifier false tail) ∨
    (b = 40 ∧ ¬ (rest[0]? = some 63 ∧ rest[1]? = some 58) ∧ StrayQuantifier false rest) ∨
    (b = 41 ∧ StrayQuantifier true rest) ∨ (b = 124 ∧ StrayQuantifier false rest) ∨
    (b ∉ ([40, 41, 42, 43, 63, 91, 92, 123, 124] : List UInt8) ∧ StrayQuantifier true rest) := by
  constructor
  · intro stray
    cases stray with
    | here quantifier => exact Or.inl ⟨quantifier, nofun⟩
    | quantifier quantifier later => exact Or.inl ⟨quantifier, fun _ => later⟩
    | counted plain later => exact Or.inr (Or.inl ⟨rfl, rfl, _, _, plain, rfl, later⟩)
    | brace later => simp_all
    | escape later => simp_all
    | bracket form later =>
        exact Or.inr (Or.inr (Or.inr (Or.inr (Or.inl ⟨rfl, _, _, form, later⟩))))
    | silentOpen later => simp_all
    | opening other later => exact Or.inr (Or.inr (Or.inr (Or.inr (Or.inr (Or.inr (Or.inl ⟨rfl, other, later⟩))))))
    | close later => simp_all
    | bar later => simp_all
    | literal other later =>
        exact Or.inr (Or.inr (Or.inr (Or.inr (Or.inr (Or.inr (Or.inr (Or.inr (Or.inr ⟨other, later⟩))))))))
  · rintro (⟨quantifier, later⟩ | ⟨rfl, rfl, inner, tail, plain, rfl, later⟩ | ⟨rfl, rfl, later⟩ |
      ⟨rfl, c, tail, rfl, later⟩ | ⟨rfl, set, tail, form, later⟩ | ⟨rfl, tail, rfl, later⟩ | ⟨rfl, other, later⟩ |
      ⟨rfl, later⟩ | ⟨rfl, later⟩ | ⟨other, later⟩)
    · cases follows with
      | false => exact .here quantifier
      | true => exact .quantifier quantifier (later rfl)
    · exact .counted plain later
    · exact .brace later
    · exact .escape later
    · exact .bracket form later
    · exact .silentOpen later
    · exact .opening other later
    · exact .close later
    · exact .bar later
    · exact .literal other later

theorem not_strayQuantifier_nil : ¬ StrayQuantifier follows [] := nofun

theorem strayQuantifier_escape : StrayQuantifier follows (92 :: b :: rest) ↔ StrayQuantifier true rest := by
  rw [strayQuantifier_cons]
  simp [isQuantifier]

theorem strayQuantifier_bracket {set : ByteSet} (form : ClassText text rest set) :
    StrayQuantifier follows (91 :: text) ↔ StrayQuantifier true rest := by
  have only : (∃ set tail, ClassText text tail set ∧ StrayQuantifier true tail) ↔ StrayQuantifier true rest := by
    constructor
    · rintro ⟨set', tail, form', later⟩
      rw [classText_unique form form']
      exact later
    · exact fun later => ⟨set, rest, form, later⟩
  rw [strayQuantifier_cons, only]
  simp [isQuantifier]

theorem strayQuantifier_group (other : text[0]? ≠ some 63) :
    StrayQuantifier follows (40 :: text) ↔ StrayQuantifier false text := by
  have silent : ¬ ∃ tail, text = 63 :: 58 :: tail ∧ StrayQuantifier false tail := by
    rintro ⟨tail, rfl, _⟩
    exact other rfl
  rw [strayQuantifier_cons]
  simp [isQuantifier, silent, other]

theorem strayQuantifier_silentGroup :
    StrayQuantifier follows (40 :: 63 :: 58 :: text) ↔ StrayQuantifier false text := by
  rw [strayQuantifier_cons]
  simp [isQuantifier]

theorem strayQuantifier_close : StrayQuantifier follows (41 :: rest) ↔ StrayQuantifier true rest := by
  rw [strayQuantifier_cons]
  simp [isQuantifier]

theorem strayQuantifier_bar : StrayQuantifier follows (124 :: rest) ↔ StrayQuantifier false rest := by
  rw [strayQuantifier_cons]
  simp [isQuantifier]

theorem strayQuantifier_single (quantifier : isQuantifier b = true) :
    StrayQuantifier follows (b :: rest) ↔ follows = false ∨ StrayQuantifier false rest := by
  rw [isQuantifier, Bool.or_eq_true, Bool.or_eq_true, decide_eq_true_eq, decide_eq_true_eq,
    decide_eq_true_eq] at quantifier
  rw [strayQuantifier_cons]
  rcases quantifier with (rfl | rfl) | rfl <;> cases follows <;> simp [isQuantifier]

/-- A byte without a meaning of its own is an atom. -/
theorem strayQuantifier_literal (other : b ∉ ([40, 41, 42, 43, 63, 91, 92, 124] : List UInt8))
    (brace : b = 123 → follows = false) : StrayQuantifier follows (b :: rest) ↔ StrayQuantifier true rest := by
  rw [strayQuantifier_cons]
  by_cases same : b = 123
  · subst same
    rw [brace rfl]
    simp [isQuantifier]
  · simp only [mem_cons, not_mem_nil, or_false, not_or] at other
    simp [isQuantifier, other, same]

/-- A text is cut in one way at the first place of a byte. -/
theorem cut_unique {front front' back back' : List UInt8} (plain : b ∉ front) (plain' : b ∉ front')
    (same : front ++ b :: back = front' ++ b :: back') : front = front' ∧ back = back' := by
  induction front generalizing front' with
  | nil =>
      cases front' with
      | nil => exact ⟨rfl, (List.cons.inj same).2⟩
      | cons c front' => exact absurd (mem_cons.mpr (Or.inl (List.cons.inj same).1)) plain'
  | cons c front ih =>
      cases front' with
      | nil => exact absurd (mem_cons.mpr (Or.inl (List.cons.inj same).1.symm)) plain
      | cons c' front' =>
          obtain ⟨rfl, behind⟩ := List.cons.inj same
          obtain ⟨rfl, rfl⟩ := ih (not_mem_of_not_mem_cons plain) (not_mem_of_not_mem_cons plain') behind
          exact ⟨rfl, rfl⟩

theorem strayQuantifier_counted {inner : List UInt8} (plain : 125 ∉ inner) :
    StrayQuantifier true (123 :: (inner ++ 125 :: rest)) ↔ StrayQuantifier false rest := by
  have only : (∃ inner' tail, 125 ∉ inner' ∧ inner ++ 125 :: rest = inner' ++ 125 :: tail ∧
      StrayQuantifier false tail) ↔ StrayQuantifier false rest := by
    constructor
    · rintro ⟨inner', tail, plain', same, later⟩
      obtain ⟨_, rfl⟩ := cut_unique plain plain' same
      exact later
    · exact fun later => ⟨inner, rest, plain, rfl, later⟩
  rw [strayQuantifier_cons, only]
  simp [isQuantifier]

/-- In front of the end of a sequence of atoms, the mark has no influence. -/
theorem strayQuantifier_ends {follows' : Bool} (ends : endsAtoms text[0]? = true) :
    StrayQuantifier follows text ↔ StrayQuantifier follows' text := by
  cases text with
  | nil => exact iff_of_false not_strayQuantifier_nil not_strayQuantifier_nil
  | cons b rest =>
      rw [getElem?_cons_zero, endsAtoms, Bool.or_eq_true, decide_eq_true_eq, decide_eq_true_eq] at ends
      rcases ends with rfl | rfl
      · rw [strayQuantifier_close, strayQuantifier_close]
      · rw [strayQuantifier_bar, strayQuantifier_bar]

/-- Behind an atom without a quantifier, no quantifier stands. -/
def StartsWell (follows : Bool) (text : List UInt8) : Prop :=
  follows = true → ∀ b, text[0]? = some b → isQuantifier b = false ∧ b ≠ 123

theorem digits_plain {digits : List UInt8} {n : Nat} (number : NumberText digits n) : 125 ∉ digits :=
  fun member => absurd (number.2.1 125 member) (by decide)

/-- A quantifier is no atom, and without a quantifier the atom is still in front. -/
theorem quantified_marks {node node' : RegexNode} (quantified : Quantified node node' text rest) :
    ∃ follows, StartsWell follows rest ∧ (StrayQuantifier true text ↔ StrayQuantifier follows rest) := by
  cases quantified with
  | once alone => exact ⟨true, fun _ => alone, Iff.rfl⟩
  | star => exact ⟨false, nofun, (strayQuantifier_single rfl).trans (or_iff_right nofun)⟩
  | plus => exact ⟨false, nofun, (strayQuantifier_single rfl).trans (or_iff_right nofun)⟩
  | optional => exact ⟨false, nofun, (strayQuantifier_single rfl).trans (or_iff_right nofun)⟩
  | exact number _ => exact ⟨false, nofun, strayQuantifier_counted (digits_plain number)⟩
  | @atLeast digits rest n number _ =>
      refine ⟨false, nofun, ?_⟩
      have plain : 125 ∉ digits ++ [44] := by
        rw [mem_append, mem_singleton, not_or]
        exact ⟨digits_plain number, by decide⟩
      have marked := @strayQuantifier_counted rest _ plain
      rwa [append_assoc, singleton_append] at marked
  | @between low high rest n m number number' _ _ =>
      refine ⟨false, nofun, ?_⟩
      have plain : 125 ∉ low ++ 44 :: high := by
        rw [mem_append, mem_cons, not_or, not_or]
        exact ⟨digits_plain number, by decide, digits_plain number'⟩
      have marked := @strayQuantifier_counted rest _ plain
      rwa [append_assoc, cons_append] at marked

/-- The mark of a part says whether a quantifier stands for itself in it. -/
def Marks (stray : Bool) : RegexPart → List UInt8 → List UInt8 → Prop
  | .atom _, text, rest => endsAtoms text[0]? = false → ∀ follows, StartsWell follows text →
      (StrayQuantifier follows text ↔ stray = true ∨ StrayQuantifier true rest)
  | .item _, text, rest => endsAtoms text[0]? = false → ∀ follows, StartsWell follows text →
      ∃ follows', StartsWell follows' rest ∧
        (StrayQuantifier follows text ↔ stray = true ∨ StrayQuantifier follows' rest)
  | .atoms _, text, rest | .concat _, text, rest => endsAtoms rest[0]? = true ∧ ∀ follows, StartsWell follows text →
      (StrayQuantifier follows text ↔ stray = true ∨ StrayQuantifier false rest)
  | .branches _, text, rest => endsAtoms text[0]? = true →
      (StrayQuantifier false text ↔ stray = true ∨ StrayQuantifier false rest)
  | .alternation _, text, rest => StrayQuantifier false text ↔ stray = true ∨ StrayQuantifier false rest

/-- The grammar marks exactly the stray quantifiers. The induction is on the grammar. -/
theorem marks {part : RegexPart} {stray : Bool} (form : RegexForm part stray text rest) : Marks stray part text rest := by
  induction form with
  | alternation _ _ ih ih' =>
      rw [Marks, (ih.2 false nofun), ih' ih.1, Bool.or_eq_true, or_assoc]
  | lastBranch _ =>
      intro _
      rw [or_iff_right Bool.false_ne_true]
  | nextBranch _ _ ih ih' =>
      intro _
      rw [strayQuantifier_bar, ih.2 false nofun, ih' ih.1, Bool.or_eq_true, or_assoc]
  | concat _ ih => exact ih
  | lastAtom ends =>
      refine ⟨ends, fun follows _ => ?_⟩
      rw [or_iff_right Bool.false_ne_true, strayQuantifier_ends ends]
  | nextAtom going _ _ ih ih' =>
      refine ⟨ih'.1, fun follows well => ?_⟩
      obtain ⟨follows', well', item⟩ := ih going follows well
      rw [item, ih'.2 follows' well', Bool.or_eq_true, or_assoc]
  | item _ quantified ih =>
      intro going follows well
      obtain ⟨follows', well', marked⟩ := quantified_marks quantified
      refine ⟨follows', well', ?_⟩
      rw [ih going follows well, marked]
  | anchor either =>
      intro _ follows _
      rw [or_iff_right Bool.false_ne_true]
      rcases either with rfl | rfl
      · exact strayQuantifier_literal (by decide) fun same => absurd same (by decide)
      · exact strayQuantifier_literal (by decide) fun same => absurd same (by decide)
  | dot =>
      intro _ follows _
      rw [or_iff_right Bool.false_ne_true]
      exact strayQuantifier_literal (by decide) fun same => absurd same (by decide)
  | bracket form =>
      intro _ follows _
      rw [or_iff_right Bool.false_ne_true, strayQuantifier_bracket form]
  | escape _ =>
      intro _ follows _
      rw [or_iff_right Bool.false_ne_true, strayQuantifier_escape]
  | group other _ ih =>
      intro _ follows _
      have inner : _ ↔ _ := ih
      rw [strayQuantifier_group other, inner, strayQuantifier_close]
  | silentGroup _ ih =>
      intro _ follows _
      have inner : _ ↔ _ := ih
      rw [strayQuantifier_silentGroup, inner, strayQuantifier_close]
  | @literal b rest plain single =>
      intro going follows well
      rw [or_iff_right Bool.false_ne_true]
      refine strayQuantifier_literal ?_ fun same => ?_
      · rw [getElem?_cons_zero] at going
        rw [startsAtom] at plain
        rw [isQuantifier] at single
        rw [endsAtoms] at going
        simp only [Bool.or_eq_false_iff, decide_eq_false_iff_not] at plain single going
        simp [plain, single, going]
      · cases follows with
        | false => rfl
        | true => exact absurd same (well rfl b rfl).2
  | @stray b rest quantifier =>
      intro _ follows well
      refine iff_of_true ?_ (Or.inl rfl)
      cases follows with
      | false => exact .here quantifier
      | true => exact absurd quantifier (by rw [(well rfl b rfl).1]; decide)

/-- The automata of a syntax tree fit their tables. -/
def Fits (node : RegexNode) : Prop :=
  node.nfaSize ≤ maxNfaStates ∧ ∀ frag nfa, Nfa.buildNfaFrag node Nfa.new = .ok (frag, nfa) →
    DfaBuilder.FewSets (nfa.markAccept frag.finish) frag.start

variable {order : HashOrder UInt8} {pattern : List UInt8} {node : RegexNode}

/-- The automata of a well-formed tree are built exactly when they fit their tables. -/
theorem builds_iff (wellFormed : node.WellFormed) :
    (∃ frag nfa states, Nfa.buildNfaFrag node Nfa.new = .ok (frag, nfa) ∧
      buildDfa order (nfa.markAccept frag.finish) frag.finish frag.start = .ok states) ↔ Fits node := by
  have determinised {frag : NfaFrag} {nfa : Nfa} (build : Nfa.buildNfaFrag node Nfa.new = .ok (frag, nfa)) :
      (∃ states, buildDfa order (nfa.markAccept frag.finish) frag.finish frag.start = .ok states) ↔
        DfaBuilder.FewSets (nfa.markAccept frag.finish) frag.start := by
    have built := Nfa.buildNfaFrag_makes wellFormed Nfa.new frag nfa build
    have size : (nfa.markAccept frag.finish).states.length = nfa.states.length := Nfa.length_modifyState _
    apply DfaBuilder.buildDfa_iff
    · intro p x q step
      rw [Nfa.edge_markAccept] at step
      rw [size]
      exact (built.closed p x q (Nat.zero_le p) step).2
    · rw [size]
      exact built.start.2
  constructor
  · rintro ⟨frag, nfa, states, build, determinise⟩
    refine ⟨Nfa.buildNfaFrag_iff.mp ⟨_, build⟩, ?_⟩
    intro frag' nfa' build'
    rw [build] at build'
    cases build'
    exact (determinised build).mp ⟨states, determinise⟩
  · rintro ⟨small, few⟩
    obtain ⟨⟨frag, nfa⟩, build⟩ := Nfa.buildNfaFrag_iff.mpr small
    obtain ⟨states, determinise⟩ := (determinised build).mpr (few frag nfa build)
    exact ⟨frag, nfa, states, build, determinise⟩

/-- A pattern compiles only if its tree fits. -/
theorem compileRegex_fits (order : HashOrder UInt8) (pattern : List UInt8) :
    Ends (compileRegex order pattern) fun _ => pattern ≠ [] ∧ ∃ node,
      (parseAlternation pattern (parserFuel pattern) 0).run = some (.ok (node, pattern.length)) ∧ Fits node := by
  rw [compileRegex]
  split
  · apply Ends.throw
  · rename_i some
    apply Ends.bind (parseAlternation_parses pattern).withRun
    rintro ⟨node, pos⟩ ⟨parsed, wellFormed, inside⟩
    dsimp only
    split
    · apply Ends.throw
    · rename_i atEnd
      have last : pos = pattern.length := by
        have outside := List.getElem?_eq_none_iff.mp atEnd
        omega
      subst last
      apply Ends.bind (Ends.lift fun result build => build)
      rintro ⟨frag, nfa⟩ build
      apply Ends.bind (Ends.lift fun result determinise => determinise)
      intro states determinise
      apply Ends.pure
      exact ⟨some, node, parsed, (builds_iff wellFormed).mp ⟨frag, nfa, states, build, determinise⟩⟩

/-- A pattern compiles exactly when it belongs to the grammar and its automata fit their tables. -/
theorem compiles_iff : (∃ grammar, (compileRegex order pattern).run = some (.ok grammar)) ↔
    pattern ≠ [] ∧ ∃ node stray, RegexForm (.alternation node) stray pattern [] ∧ Fits node := by
  constructor
  · rintro ⟨grammar, run⟩
    obtain ⟨some, node, parsed, fits⟩ := (compileRegex_fits order pattern).result run
    obtain ⟨stray, form⟩ := parseAlternation_iff.mp parsed
    exact ⟨some, node, stray, form, fits⟩
  · rintro ⟨some, node, stray, form, fits⟩
    have parsed := parseAlternation_iff.mpr ⟨stray, form⟩
    have wellFormed := ((parseAlternation_parses pattern).result parsed).1
    obtain ⟨frag, nfa, states, build, determinise⟩ := (@builds_iff order node wellFormed).mpr fits
    have atEnd : peek pattern pattern.length = none := getElem?_eq_none (Nat.le_refl _)
    refine ⟨Grammar.dfaToGrammar order states 0, ?_⟩
    rw [compileRegex, if_neg some, ExceptT.run_bind, parsed]
    simp only [Option.bind_eq_bind, Option.bind_some, atEnd]
    rw [build]
    change ExceptT.run (ExceptT.mk (Option.some
      (buildDfa order (nfa.markAccept frag.finish) frag.finish frag.start)) >>= _) = _
    rw [determinise]
    rfl

/-- A form of the whole pattern is marked exactly when the pattern has a stray quantifier. -/
theorem marked_iff {stray : Bool} (form : RegexForm (.alternation node) stray pattern []) :
    StrayQuantifier false pattern ↔ stray = true := by
  have marked : _ ↔ _ := marks form
  rw [marked, or_iff_left not_strayQuantifier_nil]

/-- A pattern with a stray quantifier is rejected exactly when it has no marked form that fits the tables. -/
theorem compileRegex_rejects_iff (order : HashOrder UInt8) (pattern : List UInt8) :
    (StrayQuantifier false pattern → ∃ error, (compileRegex order pattern).run = some (.error error)) ↔
      ¬ ∃ node, RegexForm (.alternation node) true pattern [] ∧ Fits node := by
  obtain ⟨outcome, run, _⟩ := compileRegex_fits order pattern
  have rejected : (∃ error, (compileRegex order pattern).run = some (.error error)) ↔
      ¬ ∃ grammar, (compileRegex order pattern).run = some (.ok grammar) := by
    rw [run]
    cases outcome <;> simp
  rw [rejected, compiles_iff]
  constructor
  · rintro refused ⟨node, form, fits⟩
    have stray := (marked_iff form).mpr rfl
    have some : pattern ≠ [] := by
      rintro rfl
      exact not_strayQuantifier_nil stray
    exact refused stray ⟨some, node, true, form, fits⟩
  · rintro unmarked stray ⟨_, node, mark, form, fits⟩
    rw [(marked_iff form).mp stray] at form
    exact unmarked ⟨node, form, fits⟩

/-- The possessive pattern a*+ compiles. -/
theorem possessive_compiles : ¬ ∀ order pattern, StrayQuantifier false pattern →
    ∃ error, (compileRegex order pattern).run = some (.error error) := by
  intro rejected
  have stray : StrayQuantifier false [97, 42, 43] := .literal (by decide) (.quantifier rfl (.here rfl))
  obtain ⟨error, run⟩ := rejected HashOrder.risingBytes _ stray
  have compiles : ((compileRegex HashOrder.risingBytes [97, 42, 43]).run.bind Except.toOption).isSome = true := by
    decide +kernel
  rw [run] at compiles
  cases compiles

end Pictor
