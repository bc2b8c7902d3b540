import Pictor.Construction.Grammar.RegexCompiler
import Pictor.Library.Outcome

namespace Pictor

/-- The words that repeat a language a permitted number of times. -/
def repeated (language : Language UInt8) (permitted : Nat → Prop) : Language UInt8 :=
  {word | ∃ count, permitted count ∧ word ∈ language ^ count}

mutual

/-- The standard meaning of the syntax tree. -/
def RegexNode.language : RegexNode → Language UInt8
  | .empty => 1
  | .byteClass set => {word | ∃ b, set.contains b = true ∧ word = [b]}
  | .concat nodes => concatLanguage nodes
  | .alternation nodes => alternationLanguage nodes
  | .star inner => KStar.kstar inner.language
  | .plus inner => inner.language * KStar.kstar inner.language
  | .optional inner => inner.language + 1
  | .countedExact inner n => inner.language ^ n
  | .countedRange inner n (some m) => repeated inner.language fun count => n ≤ count ∧ count ≤ m
  | .countedRange inner n none => repeated inner.language fun count => n ≤ count

def concatLanguage : List RegexNode → Language UInt8
  | [] => 1
  | node :: nodes => node.language * concatLanguage nodes

def alternationLanguage : List RegexNode → Language UInt8
  | [] => 0
  | node :: nodes => node.language + alternationLanguage nodes

end

variable (language : Language UInt8)
include language

/-- Optional copies are the repetitions up to their number. -/
theorem optional_pow (count : Nat) : (language + 1) ^ count = repeated language fun used => used ≤ count := by
  induction count with
  | zero =>
      ext word
      constructor
      · intro member
        exact ⟨0, le_rfl, member⟩
      · rintro ⟨used, small, member⟩
        rw [Nat.le_zero.mp small] at member
        exact member
  | succ count ih =>
      rw [pow_succ, ih, mul_add, mul_one]
      ext word
      constructor
      · rintro (product | ⟨used, small, member⟩)
        · obtain ⟨first, ⟨used, small, member⟩, second, last, rfl⟩ := Language.mem_mul.mp product
          refine ⟨used + 1, by omega, ?_⟩
          rw [pow_succ]
          exact Language.append_mem_mul member last
        · exact ⟨used, by omega, member⟩
      · rintro ⟨used, small, member⟩
        cases used with
        | zero => exact Or.inr ⟨0, Nat.zero_le count, member⟩
        | succ used =>
            rw [pow_succ] at member
            obtain ⟨first, inFirst, second, last, rfl⟩ := Language.mem_mul.mp member
            apply Or.inl
            exact Language.append_mem_mul ⟨used, by omega, inFirst⟩ last

/-- Copies in front of a repetition shift the permitted numbers. -/
theorem pow_mul_repeated (n : Nat) (permitted : Nat → Prop) : language ^ n * repeated language permitted =
      repeated language fun count => n ≤ count ∧ permitted (count - n) := by
  ext word
  constructor
  · intro product
    obtain ⟨first, inFirst, second, ⟨count, fine, inSecond⟩, rfl⟩ := Language.mem_mul.mp product
    refine ⟨n + count, ⟨by omega, ?_⟩, ?_⟩
    · rw [Nat.add_sub_cancel_left]
      exact fine
    · rw [pow_add]
      exact Language.append_mem_mul inFirst inSecond
  · rintro ⟨count, ⟨large, fine⟩, member⟩
    rw [← Nat.add_sub_cancel' large, pow_add] at member
    obtain ⟨first, inFirst, second, inSecond, rfl⟩ := Language.mem_mul.mp member
    exact Language.append_mem_mul inFirst ⟨count - n, fine, inSecond⟩

/-- A finite repetition is its mandatory copies and then its optional copies. -/
theorem pow_mul_optional_pow {n m : Nat} (ordered : n ≤ m) :
    language ^ n * (language + 1) ^ (m - n) = repeated language fun count => n ≤ count ∧ count ≤ m := by
  rw [optional_pow, pow_mul_repeated]
  congr 1
  funext count
  rw [eq_iff_iff]
  omega

/-- An open repetition is its mandatory copies and then an iteration. -/
theorem pow_mul_kstar (n : Nat) : language ^ n * KStar.kstar language = repeated language fun count => n ≤ count := by
  have all : KStar.kstar language = repeated language fun _ => True := by
    ext word
    rw [Language.kstar_eq_iSup_pow, Language.mem_iSup]
    constructor
    · rintro ⟨count, member⟩
      exact ⟨count, trivial, member⟩
    · rintro ⟨count, _, member⟩
      exact ⟨count, member⟩
  rw [all, pow_mul_repeated]
  congr 1
  funext count
  rw [and_true]

end Pictor

namespace Pictor

/-- The asterisk, the plus sign, and the question mark. -/
def isQuantifier (b : UInt8) : Bool := b = 42 || b = 43 || b = 63

/-- The set of an escape. -/
def escapeSet : UInt8 → Option ByteSet
  | 100 => some .digitSet
  | 68 => some ByteSet.digitSet.complement
  | 119 => some .wordSet
  | 87 => some ByteSet.wordSet.complement
  | 115 => some .spaceSet
  | 83 => some ByteSet.spaceSet.complement
  | 110 => some (.single 10)
  | 114 => some (.single 13)
  | 116 => some (.single 9)
  | b => if RegexParser.isMetaEscapable b then some (.single b) else none

/-- The members of a class, with the first member marked. A closing bracket is a member in the first place. -/
inductive ClassMembers : Bool → ByteSet → List UInt8 → List UInt8 → ByteSet → Prop
  | close {set : ByteSet} {rest : List UInt8} : ClassMembers false set (93 :: rest) rest set
  | escape {first : Bool} {set escaped result : ByteSet} {b : UInt8} {text rest : List UInt8} :
      escapeSet b = some escaped → ClassMembers false (set.union escaped) text rest result →
      ClassMembers first set (92 :: b :: text) rest result
  | range {first : Bool} {set result : ByteSet} {b last : UInt8} {text rest : List UInt8} :
      (b = 93 → first = true) → b ≠ 92 → last ≠ 93 → b ≤ last →
      ClassMembers false (set.insertRange b last) text rest result →
      ClassMembers first set (b :: 45 :: last :: text) rest result
  | single {first : Bool} {set result : ByteSet} {b : UInt8} {text rest : List UInt8} :
      (b = 93 → first = true) → b ≠ 92 → (text[0]? = some 45 → text[1]? = some 93) →
      ClassMembers false (set.insert b) text rest result → ClassMembers first set (b :: text) rest result

/-- The text behind an opening bracket. -/
inductive ClassText : List UInt8 → List UInt8 → ByteSet → Prop
  | negated {text rest : List UInt8} {set : ByteSet} :
      ClassMembers true .empty text rest set → ClassText (94 :: text) rest set.complement
  | plain {text rest : List UInt8} {set : ByteSet} :
      text[0]? ≠ some 94 → ClassMembers true .empty text rest set → ClassText text rest set

/-- A number in decimal digits. -/
def NumberText (digits : List UInt8) (n : Nat) : Prop :=
  digits ≠ [] ∧ (∀ b ∈ digits, RegexParser.isDigit b = true) ∧
    n = digits.foldl (fun value b => value * 10 + (b.toNat - 48)) 0

/-- A quantifier, or none if the text goes on with another byte. -/
inductive Quantified (node : RegexNode) : RegexNode → List UInt8 → List UInt8 → Prop
  | once {text : List UInt8} : (∀ b, text[0]? = some b → isQuantifier b = false ∧ b ≠ 123) →
      Quantified node node text text
  | star {rest : List UInt8} : Quantified node (.star node) (42 :: rest) rest
  | plus {rest : List UInt8} : Quantified node (.plus node) (43 :: rest) rest
  | optional {rest : List UInt8} : Quantified node (.optional node) (63 :: rest) rest
  | exact {digits rest : List UInt8} {n : Nat} : NumberText digits n → n ≤ maxRepetition →
      Quantified node (.countedExact node n) (123 :: (digits ++ 125 :: rest)) rest
  | atLeast {digits rest : List UInt8} {n : Nat} : NumberText digits n → n ≤ maxRepetition →
      Quantified node (.countedRange node n none) (123 :: (digits ++ 44 :: 125 :: rest)) rest
  | between {low high rest : List UInt8} {n m : Nat} : NumberText low n → NumberText high m → n ≤ m →
      m ≤ maxRepetition →
      Quantified node (.countedRange node n (some m)) (123 :: (low ++ 44 :: (high ++ 125 :: rest))) rest

/-- The bytes that start an atom of more than themselves. -/
def startsAtom (b : UInt8) : Bool := b = 94 || b = 36 || b = 46 || b = 91 || b = 40 || b = 92

/-- The byte in front of which a sequence of atoms ends. -/
def endsAtoms : Option UInt8 → Bool
  | none => true
  | some b => b = 41 || b = 124

/-- The parts of a pattern with their syntax trees. -/
inductive RegexPart where
  | alternation (node : RegexNode)
  | branches (nodes : List RegexNode)
  | concat (node : RegexNode)
  | atoms (nodes : List RegexNode)
  | item (node : RegexNode)
  | atom (node : RegexNode)

/-- An empty atom leaves no node. -/
def keepAtom : RegexNode → List RegexNode → List RegexNode
  | .empty, nodes => nodes
  | node, nodes => node :: nodes

/-- A part of a pattern leads from a text to a rest. The mark says that a quantifier in it stands for itself. -/
inductive RegexForm : RegexPart → Bool → List UInt8 → List UInt8 → Prop
  | alternation {first : RegexNode} {others : List RegexNode} {stray stray' : Bool} {text middle rest : List UInt8} :
      RegexForm (.concat first) stray text middle → RegexForm (.branches others) stray' middle rest →
      RegexForm (.alternation (RegexParser.alternationNode (first :: others))) (stray || stray') text rest
  | lastBranch {text : List UInt8} : text[0]? ≠ some 124 → RegexForm (.branches []) false text text
  | nextBranch {branch : RegexNode} {others : List RegexNode} {stray stray' : Bool} {text middle rest : List UInt8} :
      RegexForm (.concat branch) stray text middle → RegexForm (.branches others) stray' middle rest →
      RegexForm (.branches (branch :: others)) (stray || stray') (124 :: text) rest
  | concat {nodes : List RegexNode} {stray : Bool} {text rest : List UInt8} :
      RegexForm (.atoms nodes) stray text rest → RegexForm (.concat (RegexParser.concatNode nodes)) stray text rest
  | lastAtom {text : List UInt8} : endsAtoms text[0]? = true → RegexForm (.atoms []) false text text
  | nextAtom {node : RegexNode} {nodes : List RegexNode} {stray stray' : Bool} {text middle rest : List UInt8} :
      endsAtoms text[0]? = false → RegexForm (.item node) stray text middle →
      RegexForm (.atoms nodes) stray' middle rest → RegexForm (.atoms (keepAtom node nodes)) (stray || stray') text rest
  | item {node node' : RegexNode} {stray : Bool} {text middle rest : List UInt8} :
      RegexForm (.atom node) stray text middle → Quantified node node' middle rest →
      RegexForm (.item node') stray text rest
  | anchor {b : UInt8} {rest : List UInt8} : b = 94 ∨ b = 36 → RegexForm (.atom .empty) false (b :: rest) rest
  | dot {rest : List UInt8} : RegexForm (.atom (.byteClass .anyExceptNewline)) false (46 :: rest) rest
  | bracket {set : ByteSet} {text rest : List UInt8} :
      ClassText text rest set → RegexForm (.atom (.byteClass set)) false (91 :: text) rest
  | escape {b : UInt8} {set : ByteSet} {rest : List UInt8} :
      escapeSet b = some set → RegexForm (.atom (.byteClass set)) false (92 :: b :: rest) rest
  | group {node : RegexNode} {stray : Bool} {text rest : List UInt8} : text[0]? ≠ some 63 →
      RegexForm (.alternation node) stray text (41 :: rest) → RegexForm (.atom node) stray (40 :: text) rest
  | silentGroup {node : RegexNode} {stray : Bool} {text rest : List UInt8} :
      RegexForm (.alternation node) stray text (41 :: rest) →
      RegexForm (.atom node) stray (40 :: 63 :: 58 :: text) rest
  | literal {b : UInt8} {rest : List UInt8} : startsAtom b = false → isQuantifier b = false →
      RegexForm (.atom (.byteClass (.single b))) false (b :: rest) rest
  | stray {b : UInt8} {rest : List UInt8} : isQuantifier b = true →
      RegexForm (.atom (.byteClass (.single b))) true (b :: rest) rest

/-- A quantifier of the pattern does not follow an atom. The mark says that an atom is in front of the text. -/
inductive StrayQuantifier : Bool → List UInt8 → Prop
  | here {b : UInt8} {rest : List UInt8} : isQuantifier b = true → StrayQuantifier false (b :: rest)
  | quantifier {b : UInt8} {rest : List UInt8} : isQuantifier b = true → StrayQuantifier false rest →
      StrayQuantifier true (b :: rest)
  | counted {inner rest : List UInt8} : 125 ∉ inner → StrayQuantifier false rest →
      StrayQuantifier true (123 :: (inner ++ 125 :: rest))
  | brace {rest : List UInt8} : StrayQuantifier true rest → StrayQuantifier false (123 :: rest)
  | escape {follows : Bool} {b : UInt8} {rest : List UInt8} : StrayQuantifier true rest →
      StrayQuantifier follows (92 :: b :: rest)
  | bracket {follows : Bool} {set : ByteSet} {text rest : List UInt8} : ClassText text rest set →
      StrayQuantifier true rest → StrayQuantifier follows (91 :: text)
  | silentOpen {follows : Bool} {rest : List UInt8} : StrayQuantifier false rest →
      StrayQuantifier follows (40 :: 63 :: 58 :: rest)
  | opening {follows : Bool} {rest : List UInt8} : ¬ (rest[0]? = some 63 ∧ rest[1]? = some 58) →
      StrayQuantifier false rest → StrayQuantifier follows (40 :: rest)
  | close {follows : Bool} {rest : List UInt8} : StrayQuantifier true rest → StrayQuantifier follows (41 :: rest)
  | bar {follows : Bool} {rest : List UInt8} : StrayQuantifier false rest → StrayQuantifier follows (124 :: rest)
  | literal {follows : Bool} {b : UInt8} {rest : List UInt8} :
      b ∉ ([40, 41, 42, 43, 63, 91, 92, 123, 124] : List UInt8) → StrayQuantifier true rest →
      StrayQuantifier follows (b :: rest)

end Pictor

namespace Pictor
open List

/-- An alternation has a branch, and a counted range is not empty. -/
inductive RegexNode.WellFormed : RegexNode → Prop
  | empty : WellFormed .empty
  | byteClass (set : ByteSet) : WellFormed (.byteClass set)
  | concat {nodes : List RegexNode} : (∀ node ∈ nodes, WellFormed node) → WellFormed (.concat nodes)
  | alternation {nodes : List RegexNode} :
      nodes ≠ [] → (∀ node ∈ nodes, WellFormed node) → WellFormed (.alternation nodes)
  | star {inner : RegexNode} : WellFormed inner → WellFormed (.star inner)
  | plus {inner : RegexNode} : WellFormed inner → WellFormed (.plus inner)
  | optional {inner : RegexNode} : WellFormed inner → WellFormed (.optional inner)
  | countedExact {inner : RegexNode} (n : Nat) : WellFormed inner → WellFormed (.countedExact inner n)
  | countedRange {inner : RegexNode} {n : Nat} {m : Option Nat} :
      WellFormed inner → (∀ top ∈ m, n ≤ top) → WellFormed (.countedRange inner n m)

namespace RegexParser

open Outcome

variable {input : List UInt8} {pos : Nat}

theorem peek_lt {b : UInt8} (here : peek input pos = some b) : pos < input.length :=
  (List.getElem?_eq_some_iff.mp here).1

/-- The result position is inside the input and after a position. -/
def After (input : List UInt8) (pos pos' : Nat) : Prop := pos < pos' ∧ pos' ≤ input.length

theorem expect_parses (expected : UInt8) : Ends (expect input expected pos) (After input pos) := by
  rw [expect]
  split
  · rename_i b here
    have inside := peek_lt here
    split
    · apply Ends.pure
      exact ⟨by omega, by omega⟩
    · apply Ends.throw
  · apply Ends.throw

theorem parseDecimalNumber_parses : Ends (parseDecimalNumber input pos) (fun result => After input pos result.2) := by
  rw [parseDecimalNumber]
  split
  · apply Ends.throw
  · rename_i some
    split
    · apply Ends.throw
    · apply Ends.pure
      have positive := length_pos_iff.mpr some
      have prefixLength := (List.takeWhile_prefix isDigit (l := input.drop pos)).length_le
      rw [length_drop] at prefixLength
      exact ⟨by omega, by omega⟩

/-- A good parser result has a well-formed tree and a later position. -/
def GoodNode (input : List UInt8) (pos : Nat) (result : RegexNode × Nat) : Prop :=
  result.1.WellFormed ∧ After input pos result.2

variable {atom : RegexNode} {atoms : List RegexNode}

theorem parseCountedQuantifier_parses (fine : atom.WellFormed) :
    Ends (parseCountedQuantifier input atom pos) (GoodNode input pos) := by
  rw [parseCountedQuantifier]
  apply Ends.bind parseDecimalNumber_parses
  rintro ⟨n, next⟩ ⟨later, inside⟩
  dsimp only at later inside ⊢
  split
  · rename_i here
    have bound := peek_lt here
    split
    · apply Ends.throw
    · apply Ends.pure
      exact ⟨.countedExact n fine, by omega, by omega⟩
  · split
    · rename_i here
      have bound := peek_lt here
      split
      · apply Ends.throw
      · apply Ends.pure
        exact ⟨.countedRange fine (by simp), by omega, by omega⟩
    · apply Ends.bind parseDecimalNumber_parses
      rintro ⟨m, next'⟩ ⟨later', _⟩
      apply Ends.bind (expect_parses 125)
      rintro last ⟨after, bound⟩
      dsimp only at later' after
      split
      · apply Ends.throw
      · split
        · apply Ends.throw
        · rename_i ordered _
          apply Ends.pure
          refine ⟨.countedRange fine ?_, by omega, bound⟩
          intro top known
          rw [Option.mem_some_iff] at known
          omega
  · apply Ends.throw
  · apply Ends.throw

theorem parseEscapeToSet_parses : Ends (parseEscapeToSet input pos) (fun result => After input pos result.2) := by
  have step {b : UInt8} (here : peek input pos = some b) : After input pos (pos + 1) :=
    ⟨by omega, peek_lt here⟩
  rw [parseEscapeToSet]
  split
  · apply Ends.throw
  all_goals first
    | apply Ends.pure
      apply step
      assumption
    | skip
  rename_i b _ _ _ _ _ _ _ _ _ here
  split
  · apply Ends.pure
    exact step here
  · split
    · apply Ends.throw
    · split <;> apply Ends.throw

theorem parseEscape_parses : Ends (parseEscape input pos) (GoodNode input pos) := by
  apply Ends.bind parseEscapeToSet_parses
  intro result later
  apply Ends.pure
  exact ⟨.byteClass result.1, later⟩

/-- Each member of a class moves the position forward. -/
theorem parseClassItems_parses (fuel : Nat) (set : ByteSet) (first : Bool) (pos : Nat)
    (enough : input.length < fuel + pos) (positive : 0 < fuel) :
    Ends (parseClassItems input fuel set first pos) (fun result => After input pos result.2) := by
  induction fuel generalizing set first pos with
  | zero => omega
  | succ fuel ih =>
      have more {set : ByteSet} {first : Bool} {pos' : Nat} (later : pos < pos')
          (inside : pos < input.length) :
          Ends (parseClassItems input fuel set first pos') (fun result => After input pos result.2) := by
        apply Ends.mono (ih set first pos' (by omega) (by omega))
        intro result after
        exact ⟨Nat.lt_trans later after.1, after.2⟩
      rw [parseClassItems]
      split
      · apply Ends.throw
      · rename_i b here
        have inside := peek_lt here
        split
        · apply Ends.pure
          exact ⟨by omega, by omega⟩
        · split
          · apply Ends.bind parseEscapeToSet_parses
            rintro ⟨escaped, pos'⟩ ⟨later, _⟩
            apply more _ inside
            dsimp only at later
            omega
          · split
            · split
              · split
                · apply Ends.throw
                · exact more (by omega) inside
              · apply Ends.throw
            · exact more (by omega) inside

theorem parseCharClass_parses : Ends (parseCharClass input pos) (fun result =>
    result.1.WellFormed ∧ After input pos result.2) := by
  rw [parseCharClass]
  split
  · apply Ends.bind (parseClassItems_parses _ _ _ _ (by omega) (by omega))
    rintro ⟨set, pos'⟩ ⟨later, inside⟩
    apply Ends.pure
    exact ⟨.byteClass _, by dsimp only at later; omega, inside⟩
  · apply Ends.bind (parseClassItems_parses _ _ _ _ (by omega) (by omega))
    intro result after
    apply Ends.pure
    exact ⟨.byteClass _, after⟩

theorem groupPrefix_parses (inside : pos ≤ input.length) :
    Ends (groupPrefix input pos) (fun pos' => pos ≤ pos' ∧ pos' ≤ input.length) := by
  rw [groupPrefix]
  split
  · split
    · apply Ends.throw
    · apply Ends.throw
    · split <;> apply Ends.throw
    · apply Ends.throw
    · rename_i here
      have bound := peek_lt here
      apply Ends.pure
      omega
    · apply Ends.throw
  · apply Ends.pure
    omega

theorem concatNode_wellFormed (each : ∀ atom ∈ atoms, atom.WellFormed) : (concatNode atoms).WellFormed := by
  rw [concatNode.eq_def]
  split
  · exact .empty
  · exact each _ mem_cons_self
  · exact .concat each

theorem alternationNode_wellFormed {branches : List RegexNode} (some : branches ≠ [])
    (each : ∀ branch ∈ branches, branch.WellFormed) : (alternationNode branches).WellFormed := by
  rw [alternationNode.eq_def]
  split
  · exact each _ mem_cons_self
  · exact .alternation some each

theorem pushAtom_wellFormed (each : ∀ atom ∈ atoms, atom.WellFormed) (fine : atom.WellFormed) :
    ∀ other ∈ pushAtom atoms atom, other.WellFormed := by
  rw [pushAtom.eq_def]
  split
  · exact each
  · intro other member
    rcases mem_append.mp member with old | new
    · exact each other old
    · rw [mem_singleton.mp new]
      exact fine

theorem parseQuantifier_parses (fine : atom.WellFormed) (inside : pos ≤ input.length) :
    Ends (parseQuantifier input atom pos) (fun result =>
      result.1.WellFormed ∧ pos ≤ result.2 ∧ result.2 ≤ input.length) := by
  rw [parseQuantifier]
  split
  · rename_i here
    have bound := peek_lt here
    apply Ends.pure
    exact ⟨.star fine, by omega, by omega⟩
  · rename_i here
    have bound := peek_lt here
    apply Ends.pure
    exact ⟨.plus fine, by omega, by omega⟩
  · rename_i here
    have bound := peek_lt here
    apply Ends.pure
    exact ⟨.optional fine, by omega, by omega⟩
  · apply Ends.mono (parseCountedQuantifier_parses fine)
    rintro result ⟨wellFormed, later, inside⟩
    exact ⟨wellFormed, later.le, inside⟩
  · apply Ends.pure
    exact ⟨fine, le_rfl, inside⟩

/-- Every call of the recursive descent is good when the fuel covers six calls for each byte. -/
structure Descends (input : List UInt8) (fuel : Nat) : Prop where
  alternation : ∀ pos, pos ≤ input.length → 6 * input.length + 3 ≤ fuel + 6 * pos →
    Ends (parseAlternation input fuel pos) fun result =>
      result.1.WellFormed ∧ pos ≤ result.2 ∧ result.2 ≤ input.length
  branches : ∀ branches pos, branches ≠ [] → (∀ branch ∈ branches, branch.WellFormed) →
    pos ≤ input.length → 6 * input.length + 2 ≤ fuel + 6 * pos →
    Ends (parseBranches input fuel branches pos) fun result =>
      (result.1 ≠ [] ∧ ∀ branch ∈ result.1, branch.WellFormed) ∧ pos ≤ result.2 ∧ result.2 ≤ input.length
  concat : ∀ pos, pos ≤ input.length → 6 * input.length + 2 ≤ fuel + 6 * pos →
    Ends (parseConcat input fuel pos) fun result =>
      result.1.WellFormed ∧ pos ≤ result.2 ∧ result.2 ≤ input.length
  atoms : ∀ atoms pos, (∀ atom ∈ atoms, atom.WellFormed) → pos ≤ input.length →
    6 * input.length + 1 ≤ fuel + 6 * pos →
    Ends (parseAtoms input fuel atoms pos) fun result =>
      (∀ atom ∈ result.1, atom.WellFormed) ∧ pos ≤ result.2 ∧ result.2 ≤ input.length
  quantifiedAtom : ∀ pos, pos < input.length → 6 * input.length ≤ fuel + 6 * pos →
    Ends (parseQuantifiedAtom input fuel pos) (GoodNode input pos)
  atom : ∀ pos, pos < input.length → 6 * input.length ≤ fuel + 1 + 6 * pos →
    Ends (parseAtom input fuel pos) (GoodNode input pos)
  group : ∀ pos, pos ≤ input.length → 6 * input.length + 4 ≤ fuel + 6 * pos →
    Ends (parseGroup input fuel pos) (GoodNode input pos)

/-- The recursive descent ends. The induction is on the fuel, for all functions at once. -/
theorem descends (fuel : Nat) : Descends input fuel := by
  induction fuel with
  | zero =>
      constructor
      all_goals
        intros
        omega
  | succ fuel ih =>
      constructor
      case alternation =>
        intro pos inside enough
        rw [parseAlternation]
        apply Ends.bind (ih.concat pos inside (by omega))
        rintro ⟨first, pos'⟩ ⟨fine, later, inside'⟩
        dsimp only at fine later inside'
        apply Ends.bind (ih.branches [first] pos' (by simp) (by simpa using fine) inside' (by omega))
        rintro ⟨branches, last⟩ ⟨⟨some, each⟩, after, bound⟩
        apply Ends.pure
        exact ⟨alternationNode_wellFormed some each, later.trans after, bound⟩
      case branches =>
        intro branches pos some each inside enough
        rw [parseBranches]
        split
        · rename_i here
          have bound := peek_lt here
          apply Ends.bind (ih.concat (pos + 1) (by omega) (by omega))
          rintro ⟨branch, pos'⟩ ⟨fine, later, inside'⟩
          dsimp only at fine later inside'
          have each' : ∀ other ∈ branches ++ [branch], other.WellFormed := by
            intro other member
            rcases mem_append.mp member with old | new
            · exact each other old
            · rw [mem_singleton.mp new]
              exact fine
          apply Ends.mono (ih.branches (branches ++ [branch]) pos' (by simp) each' inside' (by omega))
          rintro result ⟨shape, after, bound⟩
          exact ⟨shape, by omega, bound⟩
        · apply Ends.pure
          exact ⟨⟨some, each⟩, le_rfl, inside⟩
      case concat =>
        intro pos inside enough
        rw [parseConcat]
        apply Ends.bind (ih.atoms [] pos (by simp) inside (by omega))
        rintro ⟨atoms, pos'⟩ ⟨each, later⟩
        apply Ends.pure
        exact ⟨concatNode_wellFormed each, later⟩
      case atoms =>
        intro atoms pos each inside enough
        rw [parseAtoms]
        split
        · apply Ends.pure
          exact ⟨each, le_rfl, inside⟩
        · apply Ends.pure
          exact ⟨each, le_rfl, inside⟩
        · apply Ends.pure
          exact ⟨each, le_rfl, inside⟩
        · rename_i b _ _ here
          have bound := peek_lt here
          apply Ends.bind (ih.quantifiedAtom pos bound (by omega))
          rintro ⟨atom, pos'⟩ ⟨fine, later, inside'⟩
          dsimp only at fine later inside'
          apply Ends.mono (ih.atoms _ pos' (pushAtom_wellFormed each fine) inside' (by omega))
          rintro result ⟨each', after, bound'⟩
          exact ⟨each', by omega, bound'⟩
      case quantifiedAtom =>
        intro pos inside enough
        rw [parseQuantifiedAtom]
        apply Ends.bind (ih.atom pos inside (by omega))
        rintro ⟨atom, pos'⟩ ⟨fine, later, inside'⟩
        apply Ends.mono (parseQuantifier_parses fine inside')
        rintro result ⟨wellFormed, after, bound⟩
        exact ⟨wellFormed, Nat.lt_of_lt_of_le later after, bound⟩
      case atom =>
        intro pos inside enough
        have skip {result : RegexNode × Nat} (good : GoodNode input (pos + 1) result) :
            GoodNode input pos result := ⟨good.1, Nat.lt_of_succ_lt good.2.1, good.2.2⟩
        have one {node : RegexNode} (fine : node.WellFormed) :
            Ends (pure (node, pos + 1) : RegexParse _) (GoodNode input pos) :=
          Ends.pure ⟨fine, Nat.lt_succ_self pos, inside⟩
        rw [parseAtom]
        split
        · exact one .empty
        · exact one .empty
        · exact one (.byteClass _)
        · exact parseCharClass_parses.mono fun result => skip
        · exact (ih.group (pos + 1) inside (by omega)).mono fun result => skip
        · exact parseEscape_parses.mono fun result => skip
        · exact one (.byteClass _)
        · apply Ends.throw
      case group =>
        intro pos inside enough
        rw [parseGroup]
        apply Ends.bind (groupPrefix_parses inside)
        rintro pos₁ ⟨later, inside₁⟩
        apply Ends.bind (ih.alternation pos₁ inside₁ (by omega))
        rintro ⟨inner, pos₂⟩ ⟨fine, later₂, _⟩
        dsimp only at fine later₂
        apply Ends.bind (expect_parses 41)
        rintro last ⟨after, bound⟩
        apply Ends.pure
        exact ⟨fine, by dsimp only; omega, bound⟩

/-- The parser of a whole pattern ends within its bound and builds a well-formed tree. -/
theorem parseAlternation_parses (input : List UInt8) :
    Ends (parseAlternation input (parserFuel input) 0) fun result =>
      result.1.WellFormed ∧ result.2 ≤ input.length := by
  apply Ends.mono ((descends (parserFuel input)).alternation 0 (Nat.zero_le _) le_rfl)
  rintro result ⟨fine, _, inside⟩
  exact ⟨fine, inside⟩

end RegexParser

end Pictor
