import Mathlib.Data.Finset.Prod
import Pictor.Construction.Grammar.Earley

namespace Pictor.Grammar
open List

/-- A symbol sequence starts with a byte, or with nothing where all its symbols are nullable. -/
inductive Starts (grammar : Grammar) : List Symbol → Option UInt8 → Prop
  | nil : Starts grammar [] none
  | emptyTerminal {rest : List Symbol} {start : Option UInt8} :
      Starts grammar rest start → Starts grammar (.terminal [] :: rest) start
  | terminal {byte : UInt8} {bytes : List UInt8} {rest : List Symbol} :
      Starts grammar (.terminal (byte :: bytes) :: rest) (some byte)
  | front {rule : Rule} {rest : List Symbol} {byte : UInt8} :
      rule ∈ grammar.rules → Starts grammar rule.rhs (some byte) →
      Starts grammar (.nonTerminal rule.lhs :: rest) (some byte)
  | behind {rule : Rule} {rest : List Symbol} {start : Option UInt8} :
      rule ∈ grammar.rules → Starts grammar rule.rhs none → Starts grammar rest start →
      Starts grammar (.nonTerminal rule.lhs :: rest) start

/-- Every non-terminal of a right-hand side derives a word. -/
def Productive (grammar : Grammar) : Prop :=
  ∀ rule ∈ grammar.rules, ∀ id, .nonTerminal id ∈ rule.rhs → ∃ word, Derives grammar [.nonTerminal id] word

variable {grammar : Grammar} {symbols rest : List Symbol}

/-- A rule whose right-hand side starts with something makes its non-terminal start with it. -/
theorem Starts.rule {rule : Rule} {start : Option UInt8} (member : rule ∈ grammar.rules)
    (starts : Starts grammar rule.rhs start) : Starts grammar [.nonTerminal rule.lhs] start := by
  cases start with
  | none => exact .behind member starts .nil
  | some byte => exact .front member starts

variable {id : NonTerminalId} {byte : UInt8}

theorem starts_nonTerminal {start : Option UInt8} : Starts grammar [.nonTerminal id] start ↔
      ∃ rule ∈ grammar.rules, rule.lhs = id ∧ Starts grammar rule.rhs start := by
  constructor
  · intro starts
    cases starts with
    | front member inner => exact ⟨_, member, rfl, inner⟩
    | behind member inner later =>
        cases later
        exact ⟨_, member, rfl, inner⟩
  · rintro ⟨rule, member, rfl, inner⟩
    exact .rule member inner

/-- Symbols start with nothing exactly if they derive the empty word. -/
theorem starts_none : Starts grammar symbols none ↔ Derives grammar symbols [] := by
  constructor
  · generalize same : (none : Option UInt8) = start
    intro starts
    induction starts with
    | nil => exact .nil
    | emptyTerminal _ ih => exact .terminal (ih same)
    | terminal => cases same
    | front => cases same
    | behind member _ _ inner later => exact .nonTerminal member (inner rfl) (later same)
  · generalize same : ([] : List UInt8) = word
    intro derived
    induction derived with
    | nil => exact .nil
    | terminal _ ih =>
        obtain ⟨rfl, rfl⟩ := append_eq_nil_iff.mp same.symm
        exact .emptyTerminal (ih rfl)
    | nonTerminal member _ _ inner later =>
        obtain ⟨rfl, rfl⟩ := append_eq_nil_iff.mp same.symm
        exact .behind member (inner rfl) (later rfl)

/-- Symbols start with the first byte of each word that they derive. -/
theorem Derives.starts {word : List UInt8} (derived : Derives grammar symbols (byte :: word)) :
    Starts grammar symbols (some byte) := by
  generalize same : byte :: word = whole at derived
  induction derived generalizing word with
  | nil => cases same
  | @terminal bytes rest tail _ ih =>
      cases bytes with
      | nil => exact .emptyTerminal (ih same)
      | cons first bytes =>
          cases same
          exact .terminal
  | @nonTerminal rule rest first second member inner _ ih ih' =>
      cases first with
      | nil => exact .behind member (starts_none.mpr inner) (ih' same)
      | cons front back =>
          cases same
          exact .front member (ih rfl)

/-- Symbols whose non-terminals derive words derive a word. -/
theorem exists_derives (productive : ∀ id, .nonTerminal id ∈ symbols → ∃ word, Derives grammar [.nonTerminal id] word) :
    ∃ word, Derives grammar symbols word := by
  induction symbols with
  | nil => exact ⟨[], .nil⟩
  | cons symbol symbols ih =>
      obtain ⟨later, derived⟩ := ih fun id member => productive id (mem_cons_of_mem _ member)
      cases symbol with
      | terminal bytes => exact ⟨_, .terminal derived⟩
      | nonTerminal id =>
          obtain ⟨front, first⟩ := productive id mem_cons_self
          exact ⟨_, first.append derived⟩

/-- What follows a start can be derived when every non-terminal derives a word. -/
theorem Starts.derives (productive : Productive grammar) (starts : Starts grammar symbols (some byte))
    (inside : ∀ id, .nonTerminal id ∈ symbols → ∃ word, Derives grammar [.nonTerminal id] word) :
    ∃ word, Derives grammar symbols (byte :: word) := by
  generalize same : some byte = start at starts
  induction starts with
  | nil => cases same
  | emptyTerminal _ ih =>
      obtain ⟨word, derived⟩ := ih (fun id member => inside id (mem_cons_of_mem _ member)) same
      exact ⟨word, .terminal derived⟩
  | @terminal byte bytes rest =>
      cases same
      obtain ⟨later, derived⟩ := exists_derives fun id member => inside id (mem_cons_of_mem _ member)
      exact ⟨bytes ++ later, .terminal derived⟩
  | @front rule rest byte member _ ih =>
      obtain ⟨word, first⟩ := ih (fun id inner => productive rule member id inner) same
      obtain ⟨later, derived⟩ := exists_derives fun id member => inside id (mem_cons_of_mem _ member)
      exact ⟨word ++ later, .nonTerminal member first derived⟩
  | @behind rule rest start member empty _ _ later =>
      obtain ⟨word, derived⟩ := later (fun id member => inside id (mem_cons_of_mem _ member)) same
      exact ⟨word, .nonTerminal member (starts_none.mp empty) derived⟩

/-- A non-terminal of a productive grammar starts with the first bytes of its words. -/
theorem starts_some (productive : Productive grammar) :
    Starts grammar [.nonTerminal id] (some byte) ↔ ∃ word, Derives grammar [.nonTerminal id] (byte :: word) := by
  constructor
  · intro starts
    obtain ⟨rule, member, rfl, inner⟩ := starts_nonTerminal.mp starts
    obtain ⟨word, derived⟩ := inner.derives productive fun id inside => productive rule member id inside
    exact ⟨word, .rule member derived⟩
  · rintro ⟨word, derived⟩
    exact derived.starts

end Pictor.Grammar

namespace Pictor.FirstSets
open Grammar List

/-- The sets say that a non-terminal starts with a byte, or that it is nullable. -/
def Knows (sets : FirstSets) (nt : NonTerminalId) : Option UInt8 → Prop
  | some byte => byte ∈ sets.firstOf nt
  | none => sets.isNullable nt = true

instance (sets : FirstSets) (nt : NonTerminalId) (start : Option UInt8) : Decidable (sets.Knows nt start) := by
  cases start <;> unfold Knows <;> infer_instance

/-- What the sets say about the start of a symbol sequence. -/
def Reads (sets : FirstSets) : List Symbol → Option UInt8 → Prop
  | [], start => start = none
  | .terminal [] :: rest, start => Reads sets rest start
  | .terminal (byte :: _) :: _, start => start = some byte
  | .nonTerminal nt :: rest, start =>
      (∃ byte, start = some byte ∧ sets.Knows nt (some byte)) ∨ sets.Knows nt none ∧ Reads sets rest start

/-- The sets have one entry for each non-terminal below a count. -/
structure Sized (sets : FirstSets) (count : Nat) : Prop where
  first : sets.first.length = count
  nullable : sets.nullable.length = count

/-- Everything that the first sets say is said by the second ones. -/
def Within (sets sets' : FirstSets) : Prop := ∀ nt start, sets.Knows nt start → sets'.Knows nt start

variable {grammar : Grammar} {sets sets' : FirstSets} {count : Nat} {lhs : NonTerminalId}

theorem Within.refl (sets : FirstSets) : Within sets sets := fun _ _ known => known

theorem Within.trans {sets'' : FirstSets} (first : Within sets sets') (second : Within sets' sets'') :
    Within sets sets'' := fun nt start known => second nt start (first nt start known)

theorem Within.reads (within : Within sets sets') {symbols : List Symbol} {start : Option UInt8}
    (reads : sets.Reads symbols start) : sets'.Reads symbols start := by
  induction symbols with
  | nil => exact reads
  | cons symbol rest ih =>
      cases symbol with
      | terminal bytes =>
          cases bytes with
          | nil => exact ih reads
          | cons byte bytes => exact reads
      | nonTerminal nt =>
          rcases reads with ⟨byte, same, known⟩ | ⟨empty, later⟩
          · exact Or.inl ⟨byte, same, within nt _ known⟩
          · exact Or.inr ⟨within nt _ empty, ih later⟩

variable (sized : sets.Sized count)
include sized

/-- Sets that say the same are the same. -/
theorem Within.antisymm (sized' : sets'.Sized count) (within : Within sets sets') (within' : Within sets' sets) :
    sets = sets' := by
  have first : sets.first = sets'.first := by
    apply ext_getElem (sized.first.trans sized'.first.symm)
    intro nt inside inside'
    ext byte
    have both := Iff.intro (within nt (some byte)) (within' nt (some byte))
    simp only [Knows, firstOf, getD_eq_getElem?_getD, getElem?_eq_getElem inside,
      getElem?_eq_getElem inside', Option.getD_some] at both
    exact both
  have nullable : sets.nullable = sets'.nullable := by
    apply ext_getElem (sized.nullable.trans sized'.nullable.symm)
    intro nt inside inside'
    have both := Iff.intro (within nt none) (within' nt none)
    simp only [Knows, isNullable, getD_eq_getElem?_getD, getElem?_eq_getElem inside,
      getElem?_eq_getElem inside', Option.getD_some] at both
    exact Bool.eq_iff_iff.mpr both
  cases sets
  cases sets'
  rw [FirstSets.mk.injEq]
  exact ⟨first, nullable⟩

theorem knows_addFirst (below : lhs < count) (bytes : Finset UInt8) (nt : NonTerminalId) (start : Option UInt8) :
    (sets.addFirst lhs bytes).Knows nt start ↔
      sets.Knows nt start ∨ nt = lhs ∧ ∃ byte ∈ bytes, start = some byte := by
  cases start with
  | none => simp only [Knows, isNullable, addFirst, reduceCtorEq, and_false, exists_const, or_false]
  | some byte =>
      simp only [Knows, firstOf, addFirst, getD_eq_getElem?_getD, getElem?_modify]
      by_cases same : lhs = nt
      · obtain rfl := same
        have inside : lhs < sets.first.length := by rwa [sized.first]
        simp [getElem?_eq_getElem inside]
      · have other : nt ≠ lhs := fun same' => same same'.symm
        simp [same, other]

theorem knows_setNullable (below : lhs < count) (nt : NonTerminalId) (start : Option UInt8) :
    (sets.setNullable lhs).Knows nt start ↔ sets.Knows nt start ∨ nt = lhs ∧ start = none := by
  cases start with
  | some byte => simp only [Knows, firstOf, setNullable, reduceCtorEq, and_false, or_false]
  | none =>
      simp only [Knows, isNullable, setNullable, getD_eq_getElem?_getD, getElem?_set]
      by_cases same : lhs = nt
      · obtain rfl := same
        have inside : lhs < sets.nullable.length := by rwa [sized.nullable]
        simp [inside]
      · have other : nt ≠ lhs := fun same' => same same'.symm
        simp [same, other]

theorem Sized.addFirst (bytes : Finset UInt8) : (sets.addFirst lhs bytes).Sized count :=
  ⟨by rw [FirstSets.addFirst, length_modify, sized.first], sized.nullable⟩

theorem Sized.setNullable : (sets.setNullable lhs).Sized count :=
  ⟨sized.first, by rw [FirstSets.setNullable, length_set, sized.nullable]⟩

omit sized

/-- A part of the computation keeps the sizes, forgets nothing, and adds only what may be said. -/
structure Grows (said : NonTerminalId → Option UInt8 → Prop) (count : Nat) (sets sets' : FirstSets) : Prop where
  sized : sets'.Sized count
  within : Within sets sets'
  new : ∀ nt start, sets'.Knows nt start → sets.Knows nt start ∨ said nt start

namespace Grows

variable {said : NonTerminalId → Option UInt8 → Prop}

theorem refl (sized : sets.Sized count) : Grows said count sets sets :=
  ⟨sized, .refl sets, fun _ _ => Or.inl⟩

theorem trans {sets'' : FirstSets} (first : Grows said count sets sets') (second : Grows said count sets' sets'') :
    Grows said count sets sets'' := by
  refine ⟨second.sized, first.within.trans second.within, fun nt start known => ?_⟩
  rcases second.new nt start known with before | said
  · exact first.new nt start before
  · exact Or.inr said

theorem addFirst (sized : sets.Sized count) (below : lhs < count) {bytes : Finset UInt8}
    (allowed : ∀ byte ∈ bytes, said lhs (some byte)) : Grows said count sets (sets.addFirst lhs bytes) := by
  have knows := knows_addFirst sized below bytes
  refine ⟨sized.addFirst bytes, fun nt start known => (knows nt start).mpr (Or.inl known), fun nt start known => ?_⟩
  rcases (knows nt start).mp known with before | ⟨rfl, byte, member, rfl⟩
  · exact Or.inl before
  · exact Or.inr (allowed byte member)

theorem setNullable (sized : sets.Sized count) (below : lhs < count) (allowed : said lhs none) :
    Grows said count sets (sets.setNullable lhs) := by
  have knows := knows_setNullable sized below
  refine ⟨sized.setNullable, fun nt start known => (knows nt start).mpr (Or.inl known), fun nt start known => ?_⟩
  rcases (knows nt start).mp known with before | ⟨rfl, rfl⟩
  · exact Or.inl before
  · exact Or.inr allowed

end Grows

/-- Everything that the sets say is true of the grammar. -/
def Sound (grammar : Grammar) (sets : FirstSets) : Prop :=
  ∀ nt start, sets.Knows nt start → Starts grammar [.nonTerminal nt] start

/-- What a non-terminal may start with. -/
abbrev StartsOf (grammar : Grammar) (nt : NonTerminalId) (start : Option UInt8) : Prop :=
  Starts grammar [.nonTerminal nt] start

theorem Sound.grows (sound : Sound grammar sets) (grows : Grows (StartsOf grammar) count sets sets') :
    Sound grammar sets' := by
  intro nt start known
  rcases grows.new nt start known with before | said
  · exact sound nt start before
  · exact said

/-- A start that is found by a scan. -/
def Found (lhs : NonTerminalId) (scanned : FirstSets × Bool) : Option UInt8 → Prop
  | some byte => scanned.1.Knows lhs (some byte)
  | none => scanned.2 = true

variable {rule : Rule}

/-- The scan of the rest of a right-hand side finds what the sets say about its start. -/
theorem scanRhs_spec (member : rule ∈ grammar.rules) (below : rule.lhs < count) {rest : List Symbol}
    (into : ∀ start, Starts grammar rest start → Starts grammar rule.rhs start) (sized : sets.Sized count)
    (sound : Sound grammar sets) : Grows (StartsOf grammar) count sets (scanRhs rule.lhs rest sets).1 ∧
      ((scanRhs rule.lhs rest sets).2 = true → Starts grammar rest none) ∧
      ∀ start, sets.Reads rest start → Found rule.lhs (scanRhs rule.lhs rest sets) start := by
  induction rest generalizing sets with
  | nil =>
      refine ⟨.refl sized, fun _ => .nil, fun start reads => ?_⟩
      rw [show start = none from reads]
      rfl
  | cons symbol rest ih =>
      cases symbol with
      | terminal bytes =>
          cases bytes with
          | nil =>
              obtain ⟨grows, empty, found⟩ := ih (fun start starts => into start (.emptyTerminal starts)) sized sound
              exact ⟨grows, fun flag => .emptyTerminal (empty flag), found⟩
          | cons byte bytes =>
              have knows := knows_addFirst sized below {byte} rule.lhs (some byte)
              refine ⟨.addFirst sized below fun other inside => ?_, fun flag => (nomatch flag), fun start reads => ?_⟩
              · rw [Finset.mem_singleton.mp inside]
                exact .rule member (into _ .terminal)
              · rw [show start = some byte from reads]
                exact knows.mpr (Or.inr ⟨rfl, byte, Finset.mem_singleton_self byte, rfl⟩)
      | nonTerminal nt =>
          have starts (byte : UInt8) (known : byte ∈ sets.firstOf nt) :
              Starts grammar (.nonTerminal nt :: rest) (some byte) := by
            obtain ⟨rule', member', rfl, inner⟩ := starts_nonTerminal.mp (sound nt (some byte) known)
            exact .front member' inner
          have grows : Grows (StartsOf grammar) count sets (sets.addFirst rule.lhs (sets.firstOf nt)) :=
            .addFirst sized below fun byte known => .rule member (into _ (starts byte known))
          have first (byte : UInt8) (known : sets.Knows nt (some byte)) :
              (sets.addFirst rule.lhs (sets.firstOf nt)).Knows rule.lhs (some byte) :=
            (knows_addFirst sized below _ _ _).mpr (Or.inr ⟨rfl, byte, known, rfl⟩)
          rw [scanRhs]
          cases nullable : (sets.addFirst rule.lhs (sets.firstOf nt)).isNullable nt with
          | false =>
              simp only [Bool.false_eq_true, if_false]
              refine ⟨grows, fun flag => (nomatch flag), fun start reads => ?_⟩
              rcases reads with ⟨byte, rfl, known⟩ | ⟨empty, _⟩
              · exact first byte known
              · exact absurd (nullable.symm.trans (grows.within nt none empty)) (by decide)
          | true =>
              simp only [if_true]
              have empty : sets.Knows nt none := nullable
              obtain ⟨rule', member', rfl, inner⟩ := starts_nonTerminal.mp (sound nt none empty)
              obtain ⟨later, flagged, found⟩ :=
                ih (fun start starts => into start (.behind member' inner starts)) grows.sized (sound.grows grows)
              refine ⟨grows.trans later, fun flag => .behind member' inner (flagged flag), fun start reads => ?_⟩
              rcases reads with ⟨byte, rfl, known⟩ | ⟨_, reads⟩
              · exact later.within _ _ (first byte known)
              · exact found start (grows.within.reads reads)

theorem scanRule_eq (rule : Rule) (sets : FirstSets) : scanRule rule sets =
    if (scanRhs rule.lhs rule.rhs sets).2 = true then (scanRhs rule.lhs rule.rhs sets).1.setNullable rule.lhs
    else (scanRhs rule.lhs rule.rhs sets).1 := by
  rw [scanRule]
  by_cases none : rule.rhs = []
  · rw [if_pos none, none]
    rfl
  · rw [if_neg none]

theorem scanRule_spec (member : rule ∈ grammar.rules) (below : rule.lhs < count) (sized : sets.Sized count)
    (sound : Sound grammar sets) : Grows (StartsOf grammar) count sets (scanRule rule sets) ∧
      ∀ start, sets.Reads rule.rhs start → (scanRule rule sets).Knows rule.lhs start := by
  obtain ⟨grows, empty, found⟩ := scanRhs_spec member below (fun _ starts => starts) sized sound
  rw [scanRule_eq]
  by_cases flag : (scanRhs rule.lhs rule.rhs sets).2 = true
  · have more : Grows (StartsOf grammar) count _ ((scanRhs rule.lhs rule.rhs sets).1.setNullable rule.lhs) :=
      .setNullable grows.sized below (.rule member (empty flag))
    rw [if_pos flag]
    refine ⟨grows.trans more, fun start reads => ?_⟩
    cases start with
    | some byte => exact more.within _ _ (found _ reads)
    | none => exact (knows_setNullable grows.sized below _ _).mpr (Or.inr ⟨rfl, rfl⟩)
  · rw [if_neg flag]
    refine ⟨grows, fun start reads => ?_⟩
    cases start with
    | some byte => exact found _ reads
    | none => exact absurd (found _ reads) flag

/-- A round keeps what the sets say and adds what they say about each rule. -/
theorem foldl_scanRule_spec {rules : List Rule} (members : ∀ rule ∈ rules, rule ∈ grammar.rules)
    (below : ∀ rule ∈ rules, rule.lhs < count) (sized : sets.Sized count) (sound : Sound grammar sets) :
    Grows (StartsOf grammar) count sets (rules.foldl (fun sets rule => scanRule rule sets) sets) ∧
      ∀ rule ∈ rules, ∀ start, sets.Reads rule.rhs start →
        (rules.foldl (fun sets rule => scanRule rule sets) sets).Knows rule.lhs start := by
  induction rules generalizing sets with
  | nil => exact ⟨.refl sized, fun _ none => (nomatch none)⟩
  | cons rule rules ih =>
      rw [forall_mem_cons] at members below
      obtain ⟨grows, here⟩ := scanRule_spec members.1 below.1 sized sound
      obtain ⟨later, others⟩ := ih members.2 below.2 grows.sized (sound.grows grows)
      refine ⟨grows.trans later, forall_mem_cons.mpr ⟨fun start reads => ?_, fun other member start reads => ?_⟩⟩
      · exact later.within _ _ (here start reads)
      · exact others other member start (grows.within.reads reads)

/-- The left-hand sides of all rules are below the count. -/
def LhsBelow (grammar : Grammar) : Prop := ∀ rule ∈ grammar.rules, rule.lhs < grammar.ntCount

theorem pass_spec (below : LhsBelow grammar) (sized : sets.Sized grammar.ntCount) (sound : Sound grammar sets) :
    Grows (StartsOf grammar) grammar.ntCount sets (pass grammar sets) ∧
      ∀ rule ∈ grammar.rules, ∀ start, sets.Reads rule.rhs start → (pass grammar sets).Knows rule.lhs start :=
  foldl_scanRule_spec (fun _ member => member) below sized sound

/-- Sets that a round does not change say everything that is true of the grammar. -/
theorem complete_of_fixed (below : LhsBelow grammar) (sized : sets.Sized grammar.ntCount) (sound : Sound grammar sets)
    (fixed : pass grammar sets = sets) {symbols : List Symbol} {start : Option UInt8}
    (starts : Starts grammar symbols start) : sets.Reads symbols start := by
  have known := (pass_spec below sized sound).2
  rw [fixed] at known
  induction starts with
  | nil => rfl
  | emptyTerminal _ ih => exact ih
  | terminal => rfl
  | front member _ ih => exact Or.inl ⟨_, rfl, known _ member _ ih⟩
  | behind member _ _ ih ih' => exact Or.inr ⟨known _ member _ ih, ih'⟩

/-- The codes of all that the sets say. -/
def said (sets : FirstSets) (count : Nat) : Finset (Nat × Nat) :=
  (Finset.range count ×ˢ Finset.range 257).filter fun code =>
    sets.Knows code.1 (if code.2 = 256 then none else some (UInt8.ofNat code.2))

theorem said_card (sets : FirstSets) (count : Nat) : (sets.said count).card ≤ 257 * count := by
  refine (Finset.card_filter_le _ _).trans ?_
  rw [Finset.card_product, Finset.card_range, Finset.card_range, Nat.mul_comm]

theorem said_lt (sized : sets.Sized count) (sized' : sets'.Sized count) (within : Within sets sets')
    (changed : sets' ≠ sets) : (sets.said count).card < (sets'.said count).card := by
  apply Finset.card_lt_card
  rw [Finset.ssubset_iff_subset_ne]
  constructor
  · intro code member
    rw [said, Finset.mem_filter] at member ⊢
    exact ⟨member.1, within _ _ member.2⟩
  · intro same
    refine changed (Within.antisymm sized' sized (fun nt start known => ?_) within)
    have inside : nt < count := by
      by_contra outside
      cases start with
      | none =>
          have beyond : sets'.nullable.length ≤ nt := sized'.nullable ▸ Nat.le_of_not_lt outside
          rw [Knows, isNullable, getD_eq_getElem?_getD, getElem?_eq_none beyond] at known
          exact absurd known (by decide)
      | some byte =>
          have beyond : sets'.first.length ≤ nt := sized'.first ▸ Nat.le_of_not_lt outside
          rw [Knows, firstOf, getD_eq_getElem?_getD, getElem?_eq_none beyond] at known
          exact absurd known (Finset.notMem_empty byte)
    have coded : ∃ code < 257, (if code = 256 then none else some (UInt8.ofNat code)) = start := by
      cases start with
      | none => exact ⟨256, by decide, rfl⟩
      | some byte =>
          have small := byte.toNat_lt
          refine ⟨byte.toNat, by omega, ?_⟩
          rw [if_neg (by omega), UInt8.ofNat_toNat]
    obtain ⟨code, small, rfl⟩ := coded
    have member : (nt, code) ∈ sets'.said count := by
      rw [said, Finset.mem_filter, Finset.mem_product, Finset.mem_range, Finset.mem_range]
      exact ⟨⟨inside, small⟩, known⟩
    rw [← same, said, Finset.mem_filter] at member
    exact member.2

/-- The loop of the source, which stops at the first round that changes nothing. -/
inductive Loops (grammar : Grammar) : FirstSets → FirstSets → Prop
  | stop {sets : FirstSets} (same : pass grammar sets = sets) : Loops grammar sets sets
  | again {sets result : FirstSets} (changed : pass grammar sets ≠ sets) (later : Loops grammar (pass grammar sets) result) :
      Loops grammar sets result

/-- The loop ends with true sets that a round does not change. -/
theorem iterate_loops (below : LhsBelow grammar) {fuel : Nat} (sized : sets.Sized grammar.ntCount)
    (sound : Sound grammar sets) (enough : 257 * grammar.ntCount < fuel + (sets.said grammar.ntCount).card) :
    Loops grammar sets (iterate grammar fuel sets) ∧ (iterate grammar fuel sets).Sized grammar.ntCount ∧
      Sound grammar (iterate grammar fuel sets) ∧ pass grammar (iterate grammar fuel sets) = iterate grammar fuel sets := by
  induction fuel generalizing sets with
  | zero =>
      have most := said_card sets grammar.ntCount
      omega
  | succ fuel ih =>
      rw [iterate]
      by_cases same : pass grammar sets = sets
      · simp only [if_pos same]
        exact ⟨.stop same, sized, sound, same⟩
      · simp only [if_neg same]
        obtain ⟨grows, _⟩ := pass_spec below sized sound
        have more := said_lt sized grows.sized grows.within same
        obtain ⟨loops, rest⟩ := ih grows.sized (sound.grows grows) (by omega)
        exact ⟨.again same loops, rest⟩

theorem initial_sized (count : Nat) : (initial count).Sized count :=
  ⟨length_replicate, length_replicate⟩

theorem initial_sound (grammar : Grammar) (count : Nat) : Sound grammar (initial count) := by
  intro nt start known
  cases start with
  | none =>
      rw [Knows, isNullable, initial, getD_eq_getElem?_getD, getElem?_replicate] at known
      split at known <;> exact absurd known (by decide)
  | some byte =>
      rw [Knows, firstOf, initial, getD_eq_getElem?_getD, getElem?_replicate] at known
      split at known <;> exact absurd known (Finset.notMem_empty byte)

theorem compute_loops (below : LhsBelow grammar) :
    Loops grammar (initial grammar.ntCount) (compute grammar) ∧ (compute grammar).Sized grammar.ntCount ∧
      Sound grammar (compute grammar) ∧ pass grammar (compute grammar) = compute grammar :=
  iterate_loops below (initial_sized _) (initial_sound grammar _) (by omega)

/-- The computed sets say exactly what the non-terminals start with. -/
theorem compute_knows (below : LhsBelow grammar) (nt : NonTerminalId) (start : Option UInt8) :
    (compute grammar).Knows nt start ↔ Starts grammar [.nonTerminal nt] start := by
  obtain ⟨_, sized, sound, fixed⟩ := compute_loops below
  constructor
  · exact sound nt start
  · intro starts
    obtain ⟨rule, member, rfl, inner⟩ := starts_nonTerminal.mp starts
    have known := (pass_spec below sized sound).2 rule member start (complete_of_fixed below sized sound fixed inner)
    rwa [fixed] at known

/-- The loop ends, the nullable non-terminals are those that derive the empty word, and in a productive grammar the
FIRST sets hold the first bytes of the other words. -/
theorem compute_exact (below : LhsBelow grammar) : Loops grammar (initial grammar.ntCount) (compute grammar) ∧
      (∀ nt, (compute grammar).isNullable nt = true ↔ Derives grammar [.nonTerminal nt] []) ∧
      (Productive grammar → ∀ nt byte, byte ∈ (compute grammar).firstOf nt ↔
        ∃ word, Derives grammar [.nonTerminal nt] (byte :: word)) := by
  refine ⟨(compute_loops below).1, fun nt => ?_, fun productive nt byte => ?_⟩
  · rw [← starts_none]
    exact compute_knows below nt none
  · rw [← starts_some productive]
    exact compute_knows below nt (some byte)

/-- A symbol that is empty or the byte `a`, in front of the byte `b`. -/
def optionalStart : Grammar :=
  ⟨[⟨0, [.nonTerminal 1, .terminal [98]]⟩, ⟨1, [.terminal []]⟩, ⟨1, [.terminal [97]]⟩], 0, [], 2⟩

theorem optionalStart_below : LhsBelow optionalStart := by
  unfold LhsBelow
  decide

theorem optionalStart_productive : Productive optionalStart := by
  intro rule member id inside
  have empty : Derives optionalStart [.nonTerminal 1] [] :=
    .rule (show ⟨1, [.terminal []]⟩ ∈ optionalStart.rules by decide) (Derives.bytes [])
  simp only [optionalStart, mem_cons, not_mem_nil, or_false] at member
  rcases member with rfl | rfl | rfl
  · simp only [mem_cons, Symbol.nonTerminal.injEq, reduceCtorEq, not_mem_nil, or_false] at inside
    exact ⟨[], inside ▸ empty⟩
  · exact absurd inside (by simp)
  · exact absurd inside (by simp)

theorem optionalStart_exact : (Derives optionalStart [.nonTerminal 1] []) ∧
    ∃ word, Derives optionalStart [.nonTerminal 0] (98 :: word) := by
  obtain ⟨_, nullable, first⟩ := compute_exact optionalStart_below
  exact ⟨(nullable 1).mp (by decide), (first optionalStart_productive 0 98).mp (by decide)⟩

end Pictor.FirstSets
