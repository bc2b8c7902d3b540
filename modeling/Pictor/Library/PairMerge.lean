import Mathlib.Data.List.Infix

namespace Pictor.PairMerge
open List

variable {Symbol Letter : Type}

/-- The scan behind a first symbol. A merged symbol is compared with the symbol after it. -/
def scanFrom (join : Symbol → Symbol → Option Symbol) : Symbol → List Symbol → List Symbol
  | first, [] => [first]
  | first, second :: rest =>
      match join first second with
      | some merged => scanFrom join merged rest
      | none => first :: scanFrom join second rest

/-- The pairs that join are merged from the left to the right. -/
def scan (join : Symbol → Symbol → Option Symbol) : List Symbol → List Symbol
  | [] => []
  | first :: rest => scanFrom join first rest

/-- The scans are made one after another. -/
def reduce (joins : List (Symbol → Symbol → Option Symbol)) (symbols : List Symbol) : List Symbol :=
  joins.foldl (fun symbols join => scan join symbols) symbols

/-- A merged symbol does not join with the symbol after it. -/
def Settled (join : Symbol → Symbol → Option Symbol) : Prop :=
  ∀ first second merged, join first second = some merged → ∀ next, join merged next = none

variable {join : Symbol → Symbol → Option Symbol} {joins : List (Symbol → Symbol → Option Symbol)}
  {first second merged : Symbol} {rest symbols front back : List Symbol}

theorem scan_apart (apart : join first second = none) :
    scan join (first :: second :: rest) = first :: scan join (second :: rest) := by
  rw [scan, scanFrom, apart, scan]

theorem scan_joined (settled : Settled join) (joined : join first second = some merged) :
    scan join (first :: second :: rest) = merged :: scan join rest := by
  rw [scan, scanFrom, joined]
  cases rest with
  | nil => rfl
  | cons next rest => exact scan_apart (settled _ _ _ joined next)

variable {symbol x y : Symbol}

theorem mem_scanFrom (member : symbol ∈ scanFrom join first rest) :
    symbol ∈ first :: rest ∨ ∃ x y, join x y = some symbol := by
  induction rest generalizing first with
  | nil => exact Or.inl member
  | cons second rest ih =>
      rw [scanFrom] at member
      cases joined : join first second with
      | some merged =>
          rw [joined] at member
          rcases ih member with inside | new
          · rcases mem_cons.mp inside with rfl | inside
            · exact Or.inr ⟨first, second, joined⟩
            · exact Or.inl (mem_cons_of_mem _ (mem_cons_of_mem _ inside))
          · exact Or.inr new
      | none =>
          rw [joined] at member
          rcases mem_cons.mp member with rfl | member
          · exact Or.inl mem_cons_self
          · exact (ih member).imp_left (mem_cons_of_mem _)

/-- A symbol of a scan was there before or is merged. -/
theorem mem_scan (member : symbol ∈ scan join symbols) : symbol ∈ symbols ∨ ∃ x y, join x y = some symbol := by
  cases symbols with
  | nil => cases member
  | cons first rest => exact mem_scanFrom member

theorem pair_infix_cons :
    [x, y] <:+: first :: second :: rest ↔ (x = first ∧ y = second) ∨ [x, y] <:+: second :: rest := by
  rw [infix_cons_iff, cons_prefix_cons, cons_prefix_cons]
  simp only [List.nil_prefix, and_true]

theorem no_pair_short (short : symbols.length < 2) : ¬[x, y] <:+: symbols := by
  intro inside
  have long := inside.length_le
  rw [length_cons, length_singleton] at long
  omega

/-- A pair around a symbol has it as a part, or stands before it or behind it. -/
theorem pair_infix_around (inside : [x, y] <:+: front ++ symbol :: back) :
    [x, y] <:+: front ∨ ([x] <:+ front ∧ y = symbol) ∨ (x = symbol ∧ [y] <+: back) ∨ [x, y] <:+: back := by
  induction front with
  | nil =>
      cases back with
      | nil => exact absurd inside (no_pair_short (Nat.lt_succ_self 1))
      | cons next back =>
          rcases pair_infix_cons.mp inside with ⟨rfl, rfl⟩ | later
          · exact Or.inr (Or.inr (Or.inl ⟨rfl, back, rfl⟩))
          · exact Or.inr (Or.inr (Or.inr later))
  | cons first front ih =>
      cases front with
      | nil =>
          rcases pair_infix_cons.mp inside with ⟨rfl, rfl⟩ | later
          · exact Or.inr (Or.inl ⟨suffix_refl _, rfl⟩)
          · rcases ih later with none | ⟨none, _⟩ | behind
            · exact absurd none (no_pair_short (Nat.zero_lt_succ 1))
            · exact absurd none.length_le (Nat.not_succ_le_zero 0)
            · exact Or.inr (Or.inr behind)
      | cons second front =>
          rcases pair_infix_cons.mp inside with same | later
          · exact Or.inl (pair_infix_cons.mpr (Or.inl same))
          · rcases ih later with within | ⟨last, same⟩ | behind
            · exact Or.inl (pair_infix_cons.mpr (Or.inr within))
            · exact Or.inr (Or.inl ⟨last.trans (suffix_cons _ _), same⟩)
            · exact Or.inr (Or.inr behind)

/-- A scan without a pair that joins changes nothing. -/
theorem scan_of_apart (apart : ∀ x y, [x, y] <:+: symbols → join x y = none) : scan join symbols = symbols := by
  induction symbols with
  | nil => rfl
  | cons first symbols ih =>
      cases symbols with
      | nil => rfl
      | cons second rest =>
          rw [scan_apart (apart first second (pair_infix_cons.mpr (Or.inl ⟨rfl, rfl⟩)))]
          rw [ih fun x y inside => apart x y (pair_infix_cons.mpr (Or.inr inside))]

/-- A scan merges the first pair that joins before it goes on. -/
theorem scan_first (apart : ∀ x y, [x, y] <:+: front ++ [first] → join x y = none)
    (joined : join first second = some merged) (settled : ∀ symbol, join symbol merged = none) :
    scan join (front ++ first :: second :: rest) = scan join (front ++ merged :: rest) := by
  induction front with
  | nil =>
      rw [nil_append, nil_append, scan, scanFrom, joined]
      rfl
  | cons symbol front ih =>
      cases front with
      | nil =>
          have here := apart symbol first (pair_infix_cons.mpr (Or.inl ⟨rfl, rfl⟩))
          have inner := ih fun x y inside => absurd inside (no_pair_short (Nat.lt_succ_self 1))
          rw [cons_append, nil_append, cons_append, nil_append, scan_apart here,
            scan_apart (settled symbol)]
          rw [nil_append, nil_append] at inner
          rw [inner]
      | cons other front =>
          have here := apart symbol other (pair_infix_cons.mpr (Or.inl ⟨rfl, rfl⟩))
          have inner := ih fun x y inside => apart x y (pair_infix_cons.mpr (Or.inr inside))
          rw [cons_append, cons_append, cons_append, cons_append, scan_apart here, scan_apart here]
          rw [cons_append, cons_append] at inner
          rw [inner]

/-- A scan ends, keeps a symbol, or merges a pair. -/
inductive Scanned (join : Symbol → Symbol → Option Symbol) : List Symbol → List Symbol → Prop
  | nil : Scanned join [] []
  | stays {first : Symbol} {rest result : List Symbol}
      (apart : ∀ second, rest.head? = some second → join first second = none) (later : Scanned join rest result) :
      Scanned join (first :: rest) (first :: result)
  | merges {first second merged : Symbol} {rest result : List Symbol} (joined : join first second = some merged)
      (later : Scanned join rest result) : Scanned join (first :: second :: rest) (merged :: result)

theorem scanned_scan (settled : Settled join) (symbols : List Symbol) : Scanned join symbols (scan join symbols) := by
  generalize size : symbols.length = count
  induction count using Nat.strong_induction_on generalizing symbols with
  | _ count ih =>
      match symbols with
      | [] => exact .nil
      | [first] => exact .stays nofun .nil
      | first :: second :: rest =>
          rw [length_cons, length_cons] at size
          cases joined : join first second with
          | none =>
              rw [scan_apart joined]
              apply Scanned.stays
              · rintro _ ⟨⟩
                exact joined
              · exact ih (rest.length + 1) (by omega) (second :: rest) rfl
          | some merged =>
              rw [scan_joined settled joined]
              exact .merges joined (ih rest.length (by omega) rest rfl)

theorem Scanned.scan_eq (settled : Settled join) (scanned : Scanned join symbols front) : scan join symbols = front := by
  induction scanned with
  | nil => rfl
  | @stays first rest result apart later ih =>
      cases rest with
      | nil =>
          cases later
          rfl
      | cons second rest => rw [scan_apart (apart second rfl), ih]
  | merges joined later ih => rw [scan_joined settled joined, ih]

/-- A part of the result of a scan is the result of a part. -/
theorem Scanned.split (scanned : Scanned join symbols (front ++ back)) :
    ∃ left right, symbols = left ++ right ∧ Scanned join left front ∧ Scanned join right back := by
  generalize whole : front ++ back = result at scanned
  induction scanned generalizing front with
  | nil =>
      obtain ⟨rfl, rfl⟩ := append_eq_nil_iff.mp whole
      exact ⟨[], [], rfl, .nil, .nil⟩
  | @stays first rest result apart later ih =>
      cases front with
      | nil =>
          rw [nil_append] at whole
          rw [whole]
          exact ⟨[], first :: rest, rfl, .nil, .stays apart later⟩
      | cons other front =>
          obtain ⟨rfl, same⟩ := List.cons.inj whole
          obtain ⟨left, right, rfl, done, done'⟩ := ih same
          refine ⟨other :: left, right, rfl, .stays ?_ done, done'⟩
          intro second head
          exact apart second (by rw [head?_append, head]; rfl)
  | @merges first second merged rest result joined later ih =>
      cases front with
      | nil =>
          rw [nil_append] at whole
          rw [whole]
          exact ⟨[], first :: second :: rest, rfl, .nil, .merges joined later⟩
      | cons other front =>
          obtain ⟨rfl, same⟩ := List.cons.inj whole
          obtain ⟨left, right, rfl, done, done'⟩ := ih same
          exact ⟨first :: second :: left, right, rfl, .merges joined done, done'⟩

/-- A part of the result of all scans is the result of a part. -/
theorem reduce_split (settled : ∀ join ∈ joins, Settled join) (split : reduce joins symbols = front ++ back) :
    ∃ left right, symbols = left ++ right ∧ reduce joins left = front ∧ reduce joins right = back := by
  induction joins generalizing symbols with
  | nil => exact ⟨front, back, split, rfl, rfl⟩
  | cons join joins ih =>
      obtain ⟨here, others⟩ := forall_mem_cons.mp settled
      obtain ⟨left, right, same, done, done'⟩ := ih others split
      change scan join symbols = left ++ right at same
      have scanned := scanned_scan here symbols
      rw [same] at scanned
      obtain ⟨left', right', rfl, first, second⟩ := scanned.split
      refine ⟨left', right', rfl, ?_, ?_⟩
      · change reduce joins (scan join left') = front
        rw [first.scan_eq here, done]
      · change reduce joins (scan join right') = back
        rw [second.scan_eq here, done']

theorem reduce_single (joins : List (Symbol → Symbol → Option Symbol)) (symbol : Symbol) :
    reduce joins [symbol] = [symbol] := by
  induction joins with
  | nil => rfl
  | cons join joins ih => exact ih

theorem reduce_append (joins later : List (Symbol → Symbol → Option Symbol)) (symbols : List Symbol) :
    reduce (joins ++ later) symbols = reduce later (reduce joins symbols) := foldl_append

section Spelling

variable {spell : Symbol → List Letter}

/-- A merged symbol spells what its parts spell. -/
def Spells (spell : Symbol → List Letter) (join : Symbol → Symbol → Option Symbol) : Prop :=
  ∀ first second merged, join first second = some merged → spell merged = spell first ++ spell second

/-- A scan keeps what its symbols spell. -/
theorem Scanned.spelling (spells : Spells spell join) (scanned : Scanned join symbols front) :
    front.flatMap spell = symbols.flatMap spell := by
  induction scanned with
  | nil => rfl
  | stays _ _ ih => rw [flatMap_cons, flatMap_cons, ih]
  | merges joined _ ih =>
      rw [flatMap_cons, flatMap_cons, flatMap_cons, ih, spells _ _ _ joined, append_assoc]

theorem reduce_spelling (settled : ∀ join ∈ joins, Settled join) (spells : ∀ join ∈ joins, Spells spell join)
    (symbols : List Symbol) : (reduce joins symbols).flatMap spell = symbols.flatMap spell := by
  induction joins generalizing symbols with
  | nil => rfl
  | cons join joins ih =>
      obtain ⟨here, others⟩ := forall_mem_cons.mp settled
      obtain ⟨here', others'⟩ := forall_mem_cons.mp spells
      change (reduce joins (scan join symbols)).flatMap spell = _
      rw [ih others others', (scanned_scan here symbols).spelling here']

variable {symbol : Symbol}

/-- A symbol ends as a part of a symbol. -/
theorem Scanned.within (spells : Spells spell join) (scanned : Scanned join symbols front) (member : symbol ∈ symbols) :
    ∃ other ∈ front, spell symbol <:+: spell other := by
  induction scanned with
  | nil => cases member
  | @stays first rest result _ _ ih =>
      rcases mem_cons.mp member with rfl | member
      · exact ⟨_, mem_cons_self, infix_refl _⟩
      · obtain ⟨other, inside, part⟩ := ih member
        exact ⟨other, mem_cons_of_mem _ inside, part⟩
  | @merges first second merged rest result joined _ ih =>
      have whole := spells _ _ _ joined
      rcases mem_cons.mp member with rfl | member
      · exact ⟨merged, mem_cons_self, [], spell second, by rw [whole, nil_append]⟩
      · rcases mem_cons.mp member with rfl | member
        · exact ⟨merged, mem_cons_self, spell first, [], by rw [whole, append_nil]⟩
        · obtain ⟨other, inside, part⟩ := ih member
          exact ⟨other, mem_cons_of_mem _ inside, part⟩

theorem reduce_within (settled : ∀ join ∈ joins, Settled join) (spells : ∀ join ∈ joins, Spells spell join)
    (member : symbol ∈ symbols) : ∃ other ∈ reduce joins symbols, spell symbol <:+: spell other := by
  induction joins generalizing symbols symbol with
  | nil => exact ⟨symbol, member, infix_refl _⟩
  | cons join joins ih =>
      obtain ⟨here, others⟩ := forall_mem_cons.mp settled
      obtain ⟨here', others'⟩ := forall_mem_cons.mp spells
      obtain ⟨middle, inside, part⟩ := (scanned_scan here symbols).within here' member
      obtain ⟨other, inside', part'⟩ := ih others others' inside
      exact ⟨other, inside', part.trans part'⟩

end Spelling

variable (scanned : Scanned join symbols front)
include scanned

/-- A scan changes nothing, or has a merged symbol. -/
theorem Scanned.unchanged_or_merged :
    (∀ x y, [x, y] <:+: symbols → join x y = none) ∨ ∃ x y merged, join x y = some merged ∧ merged ∈ front := by
  induction scanned with
  | nil => exact Or.inl fun x y inside => absurd inside (no_pair_short (Nat.zero_lt_succ 1))
  | @stays first rest result apart _ ih =>
      rcases ih with none | ⟨x, y, merged, joined, member⟩
      · left
        intro x y inside
        cases rest with
        | nil => exact absurd inside (no_pair_short (Nat.lt_succ_self 1))
        | cons second rest =>
            rcases pair_infix_cons.mp inside with ⟨rfl, rfl⟩ | later
            · exact apart _ rfl
            · exact none x y later
      · exact Or.inr ⟨x, y, merged, joined, mem_cons_of_mem _ member⟩
  | merges joined _ _ => exact Or.inr ⟨_, _, _, joined, mem_cons_self⟩

theorem Scanned.length_le : front.length ≤ symbols.length := by
  induction scanned with
  | nil => exact Nat.le_refl 0
  | stays _ _ ih => exact Nat.succ_le_succ ih
  | merges _ _ ih => exact Nat.le_succ_of_le (Nat.succ_le_succ ih)

/-- A scan with a pair that joins removes a symbol. -/
theorem Scanned.length_lt (inside : [x, y] <:+: symbols) (joined : join x y ≠ none) :
    front.length < symbols.length := by
  induction scanned with
  | nil => exact absurd inside (no_pair_short (Nat.zero_lt_succ 1))
  | @stays first rest result apart later ih =>
      cases rest with
      | nil => exact absurd inside (no_pair_short (Nat.lt_succ_self 1))
      | cons second rest =>
          rcases pair_infix_cons.mp inside with ⟨rfl, rfl⟩ | behind
          · exact absurd (apart _ rfl) joined
          · exact Nat.succ_lt_succ (ih behind)
  | merges _ later _ => exact Nat.lt_succ_of_le (Nat.succ_le_succ later.length_le)

omit scanned

/-- A scan passes over symbols that do not join with each other or with the next symbol. -/
theorem scan_passes (apart : ∀ x y, [x, y] <:+: front ++ back.take 1 → join x y = none) :
    scan join (front ++ back) = front ++ scan join back := by
  induction front with
  | nil => rfl
  | cons first front ih =>
      have later := ih fun x y inside => apart x y (inside.trans (suffix_cons _ _).isInfix)
      cases front with
      | nil =>
          cases back with
          | nil => rfl
          | cons second back => exact scan_apart (apart first second (infix_refl _))
      | cons second front =>
          have here := apart first second (pair_infix_cons.mpr (Or.inl ⟨rfl, rfl⟩))
          rw [cons_append, cons_append, scan_apart here, ← cons_append, later]
          rfl

section Blocks

variable {Other : Type} {other : Other → Other → Option Other} {stands : Symbol → List Other → Prop}

/-- Each symbol of the first sequence stands for a block of the second one. -/
inductive Blocks (stands : Symbol → List Other → Prop) : List Symbol → List Other → Prop
  | nil : Blocks stands [] []
  | cons {symbol : Symbol} {block : List Other} {symbols : List Symbol} {blocks : List Other}
      (here : stands symbol block) (later : Blocks stands symbols blocks) :
      Blocks stands (symbol :: symbols) (block ++ blocks)

/-- Two joins agree on blocks: two symbols join exactly if the ends of their blocks do, these ends are then the whole
blocks, and no join is within a block. -/
structure Agree (stands : Symbol → List Other → Prop) (join : Symbol → Symbol → Option Symbol)
    (other : Other → Other → Option Other) : Prop where
  solid : ∀ symbol, ¬stands symbol []
  within : ∀ symbol block, stands symbol block → ∀ x y, [x, y] <:+: block → other x y = none
  apart : ∀ first second front back x y, stands first (front ++ [x]) → stands second (y :: back) →
    join first second = none → other x y = none
  joined : ∀ first second merged block block', stands first block → stands second block' →
    join first second = some merged → ∃ x y z, block = [x] ∧ block' = [y] ∧ other x y = some z ∧ stands merged [z]

/-- Scans with joins that agree keep the blocks. -/
theorem Agree.scan {others : List Other} (agree : Agree stands join other) (settled : Settled join)
    (settled' : Settled other) (blocks : Blocks stands symbols others) :
    Blocks stands (scan join symbols) (scan other others) := by
  have scanned := scanned_scan settled symbols
  generalize PairMerge.scan join symbols = result at scanned
  induction scanned generalizing others with
  | nil =>
      cases blocks
      exact .nil
  | @stays first rest result apart later ih =>
      cases blocks with
      | @cons _ block _ blocks here behind =>
          have passes : PairMerge.scan other (block ++ blocks) = block ++ PairMerge.scan other blocks := by
            apply scan_passes
            cases behind with
            | nil =>
                rw [take_nil, append_nil]
                exact agree.within first block here
            | @cons second block' _ blocks' next _ =>
                cases block' with
                | nil => exact absurd next (agree.solid second)
                | cons y back =>
                    rw [cons_append, take_succ_cons, take_zero]
                    intro x z inside
                    rcases pair_infix_around inside with before | ⟨⟨front, rfl⟩, rfl⟩ | ⟨_, none⟩ | none
                    · exact agree.within first block here x z before
                    · exact agree.apart first second front back x z here next (apart second rfl)
                    · exact absurd none.length_le (Nat.not_succ_le_zero 0)
                    · exact absurd none (no_pair_short (Nat.zero_lt_succ 1))
          rw [passes]
          exact .cons here (ih behind)
  | @merges first second merged rest result joined later ih =>
      cases blocks with
      | cons here behind =>
          cases behind with
          | cons next behind =>
              obtain ⟨x, y, z, rfl, rfl, same, whole⟩ := agree.joined _ _ _ _ _ here next joined
              rw [singleton_append, singleton_append, scan_joined settled' same]
              exact .cons whole (ih behind)

end Blocks

end Pictor.PairMerge
