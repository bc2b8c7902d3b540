import Pictor.Construction.Tokenizer.Bpe
import Pictor.Library.PairMerge

namespace Pictor.Bpe
open PairMerge List

variable {merges : BpeMerges} {symbols rest : List (List Char)} {first second : List Char}

/-- The pairs that can be merged, with their priorities and their places from a start on. -/
def candidates (merges : BpeMerges) (symbols : List (List Char)) (start : Nat) : List (Nat × Nat) :=
  ((symbols.zip symbols.tail).zipIdx start).filterMap fun entry =>
    (merges.getMergePriority entry.1.1 entry.1.2).map fun priority => (priority, entry.2)

theorem candidates_cons (start : Nat) : candidates merges (first :: second :: rest) start =
      ((merges.getMergePriority first second).map fun priority => (priority, start)).toList ++
        candidates merges (second :: rest) (start + 1) := by
  rw [candidates, tail_cons, zip_cons_cons, zipIdx_cons, filterMap_cons]
  cases merges.getMergePriority first second <;> rfl

/-- A pair of the best priority, at the first place where this priority occurs. -/
structure BestAt (merges : BpeMerges) (symbols front : List (List Char)) (x y : List Char)
    (back : List (List Char)) (priority : Nat) : Prop where
  split : symbols = front ++ x :: y :: back
  found : merges.getMergePriority x y = some priority
  best : ∀ x' y' other, [x', y'] <:+: symbols → merges.getMergePriority x' y' = some other → priority ≤ other
  earliest : ∀ x' y' other, [x', y'] <:+: front ++ [x] → merges.getMergePriority x' y' = some other →
    priority < other

variable {priority : Nat} {pair : List Char × List Char} {x y : List Char} {table : BpeMerges}

/-- The first pair is the best one when no later pair is better. -/
theorem BestAt.atHead {back : List (List Char)} (found : merges.getMergePriority first second = some priority)
    (best : ∀ x' y' other, [x', y'] <:+: second :: back → merges.getMergePriority x' y' = some other → priority ≤ other) :
    BestAt merges (first :: second :: back) [] first second back priority where
  split := rfl
  found := found
  best x' y' other inside has := by
    rcases pair_infix_cons.mp inside with ⟨rfl, rfl⟩ | later
    · rw [found] at has
      exact le_of_eq (Option.some.inj has)
    · exact best x' y' other later has
  earliest x' y' other inside := absurd inside (no_pair_short (Nat.lt_succ_self 1))

/-- A pair behind the first symbol is the best one when the first pair is worse. -/
theorem BestAt.later {front back : List (List Char)} {x y : List Char} {priority : Nat}
    (best : BestAt merges (second :: rest) front x y back priority)
    (worse : ∀ other, merges.getMergePriority first second = some other → priority < other) :
    BestAt merges (first :: second :: rest) (first :: front) x y back priority := by
  obtain ⟨split, found, best, earliest⟩ := best
  constructor
  · rw [split, cons_append]
  · exact found
  · intro x' y' other inside has
    rcases pair_infix_cons.mp inside with ⟨rfl, rfl⟩ | later
    · exact le_of_lt (worse other has)
    · exact best x' y' other later has
  · intro x' y' other inside has
    obtain ⟨tail, head⟩ : ∃ tail, front ++ [x] = second :: tail := by
      cases front with
      | nil =>
          obtain ⟨rfl, _⟩ := List.cons.inj split
          exact ⟨[], rfl⟩
      | cons head front =>
          obtain ⟨rfl, _⟩ := List.cons.inj split
          exact ⟨front ++ [x], rfl⟩
    rw [cons_append, head, pair_infix_cons, ← head] at inside
    rcases inside with ⟨rfl, rfl⟩ | later
    · exact worse other has
    · exact earliest x' y' other later has

theorem argmin_candidates (symbols : List (List Char)) (start : Nat) :
    match (candidates merges symbols start).argmin Prod.fst with
    | none => ∀ x y, [x, y] <:+: symbols → merges.getMergePriority x y = none
    | some entry => ∃ front x y back, entry.2 = start + front.length ∧
        BestAt merges symbols front x y back entry.1 := by
  induction symbols generalizing start with
  | nil => exact fun x y inside => absurd inside (no_pair_short (by decide))
  | cons first symbols ih =>
      cases symbols with
      | nil => exact fun x y inside => absurd inside (no_pair_short (Nat.lt_succ_self 1))
      | cons second rest =>
          have later := ih (start + 1)
          rw [candidates_cons]
          cases found : merges.getMergePriority first second with
          | none =>
              rw [Option.map_none, Option.toList_none, nil_append]
              cases best : (candidates merges (second :: rest) (start + 1)).argmin Prod.fst with
              | none =>
                  rw [best] at later
                  intro x y inside
                  rcases pair_infix_cons.mp inside with ⟨rfl, rfl⟩ | inside
                  · exact found
                  · exact later x y inside
              | some entry =>
                  rw [best] at later
                  obtain ⟨front, x, y, back, place, is⟩ := later
                  refine ⟨first :: front, x, y, back, ?_, is.later ?_⟩
                  · rw [place, length_cons]
                    omega
                  · rw [found]
                    exact nofun
          | some priority =>
              rw [Option.map_some, Option.toList_some, singleton_append, argmin_cons]
              cases best : (candidates merges (second :: rest) (start + 1)).argmin Prod.fst with
              | none =>
                  rw [best] at later
                  refine ⟨[], first, second, rest, rfl, .atHead found fun x' y' other inside has => ?_⟩
                  rw [later x' y' inside] at has
                  cases has
              | some entry =>
                  rw [best] at later
                  obtain ⟨front, x, y, back, place, is⟩ := later
                  dsimp only
                  by_cases better : entry.1 < priority
                  · rw [if_pos better]
                    refine ⟨first :: front, x, y, back, ?_, is.later ?_⟩
                    · rw [place, length_cons]
                      omega
                    · rw [found]
                      rintro _ ⟨⟩
                      exact better
                  · rw [if_neg better]
                    refine ⟨[], first, second, rest, rfl, .atHead found fun x' y' other inside has => ?_⟩
                    exact Nat.le_trans (Nat.not_lt.mp better) (is.best x' y' other inside has)

theorem mergeAt_split (front back : List (List Char)) (x y : List Char) :
    mergeAt (front ++ x :: y :: back) front.length = front ++ (x ++ y) :: back := by
  have here : (front ++ x :: y :: back).getD front.length [] = x := by simp
  have next : (front ++ x :: y :: back).getD (front.length + 1) [] = y := by simp
  rw [mergeAt, here, next, set_append_right _ _ (le_refl _), Nat.sub_self, set_cons_zero,
    eraseIdx_append_of_length_le (Nat.le_succ _), Nat.succ_sub (le_refl _), Nat.sub_self]
  rfl

/-- The loop ends without a pair, or merges the best pair and goes on. -/
theorem mergeLoop_cases (merges : BpeMerges) (bound : Nat) (symbols : List (List Char)) :
    (mergeLoop merges (bound + 1) symbols = symbols ∧
      ∀ x y, [x, y] <:+: symbols → merges.getMergePriority x y = none) ∨
    ∃ front x y back priority, BestAt merges symbols front x y back priority ∧
      mergeLoop merges (bound + 1) symbols = mergeLoop merges bound (front ++ (x ++ y) :: back) := by
  rw [mergeLoop]
  by_cases short : symbols.length < 2
  · rw [if_pos short]
    exact Or.inl ⟨rfl, fun x y inside => absurd inside (no_pair_short short)⟩
  · rw [if_neg short]
    have best := @argmin_candidates merges symbols 0
    have chosen : bestMerge merges symbols = ((candidates merges symbols 0).argmin Prod.fst).map Prod.snd := rfl
    rw [chosen]
    cases found : (candidates merges symbols 0).argmin Prod.fst with
    | none =>
        rw [found] at best
        exact Or.inl ⟨rfl, best⟩
    | some entry =>
        rw [found] at best
        obtain ⟨front, x, y, back, place, is⟩ := best
        refine Or.inr ⟨front, x, y, back, entry.1, is, ?_⟩
        rw [Nat.zero_add] at place
        rw [Option.map_some, place, is.split]
        dsimp only
        rw [mergeAt_split]

/-- Adjacent symbols with one text join. -/
def textJoin (pair : List Char × List Char) (x y : List Char) : Option (List Char) :=
  if (x, y) = pair then some (x ++ y) else none

theorem textJoin_some {z : List Char} : textJoin pair x y = some z ↔ (x, y) = pair ∧ z = x ++ y := by
  rw [textJoin]
  by_cases same : (x, y) = pair
  · rw [if_pos same, Option.some.injEq, and_iff_right same]
    exact eq_comm
  · rw [if_neg same]
    exact iff_of_false nofun fun both => same both.1

theorem textJoin_none : textJoin pair x y = none ↔ (x, y) ≠ pair := by
  rw [textJoin]
  by_cases same : (x, y) = pair
  · rw [if_pos same]
    exact iff_of_false nofun fun other => other same
  · rw [if_neg same]
    exact iff_of_true rfl same

theorem textJoin_settled {a b : List Char} (solid : b ≠ []) : Settled (textJoin (a, b)) := by
  intro x y z joined next
  obtain ⟨same, rfl⟩ := textJoin_some.mp joined
  cases same
  rw [textJoin_none]
  intro again
  exact solid (append_right_eq_self.mp (Prod.mk.inj again).1)

/-- The state of the loop when the pairs before a pair are used up: these pairs are gone, and the pair comes before
all others. -/
structure Turn (merges : BpeMerges) (seen : List (List Char × List Char)) (a b : List Char)
    (text : List Char) : Prop where
  solidLeft : a ≠ []
  solidRight : b ≠ []
  known : ∃ priority, merges.getMergePriority a b = some priority
  least : ∀ x y priority other, (x, y) ∉ seen → (x, y) ≠ (a, b) → merges.getMergePriority x y = some other →
    merges.getMergePriority a b = some priority → priority < other
  lateLeft : ∀ z, a ++ b ++ z <:+: text → (a ++ b, z) ∉ (a, b) :: seen
  lateRight : ∀ z, z ++ (a ++ b) <:+: text → (z, a ++ b) ∉ (a, b) :: seen

/-- The loop merges all pairs of a turn from the left to the right. -/
theorem mergeLoop_turn {seen : List (List Char × List Char)} {a b : List Char} {bound : Nat}
    (turn : Turn merges seen a b symbols.flatten) (unseen : ∀ x y, [x, y] <:+: symbols → (x, y) ∉ seen)
    (enough : symbols.length ≤ bound) : ∃ bound', (scan (textJoin (a, b)) symbols).length ≤ bound' ∧
      mergeLoop merges bound symbols = mergeLoop merges bound' (scan (textJoin (a, b)) symbols) ∧
      ∀ x y, [x, y] <:+: scan (textJoin (a, b)) symbols → (x, y) ∉ (a, b) :: seen := by
  have done {bound : Nat} {symbols : List (List Char)} (unseen : ∀ x y, [x, y] <:+: symbols → (x, y) ∉ seen)
      (enough : symbols.length ≤ bound) (apart : ∀ x y, [x, y] <:+: symbols → (x, y) ≠ (a, b)) :
      ∃ bound', (scan (textJoin (a, b)) symbols).length ≤ bound' ∧
        mergeLoop merges bound symbols = mergeLoop merges bound' (scan (textJoin (a, b)) symbols) ∧
        ∀ x y, [x, y] <:+: scan (textJoin (a, b)) symbols → (x, y) ∉ (a, b) :: seen := by
    rw [scan_of_apart fun x y inside => textJoin_none.mpr (apart x y inside)]
    refine ⟨bound, enough, rfl, fun x y inside member => ?_⟩
    rcases mem_cons.mp member with same | member
    · exact apart x y inside same
    · exact unseen x y inside member
  obtain ⟨priority, known⟩ := turn.known
  induction bound generalizing symbols with
  | zero =>
      rw [length_eq_zero_iff.mp (Nat.le_zero.mp enough)] at unseen ⊢
      exact done unseen (le_refl _) fun x y inside => absurd inside (no_pair_short (Nat.zero_lt_succ 1))
  | succ bound ih =>
      rcases mergeLoop_cases merges bound symbols with ⟨_, none⟩ | ⟨front, x, y, back, other, best, next⟩
      · apply done unseen enough
        rintro x y inside ⟨⟩
        rw [none a b inside] at known
        cases known
      · by_cases same : (x, y) = (a, b)
        · cases same
          obtain ⟨rfl, found, _, earliest⟩ := best
          rw [known] at found
          cases found
          have settled (symbol : List Char) : textJoin (a, b) symbol (a ++ b) = none := by
            rw [textJoin_none]
            intro again
            exact turn.solidLeft (append_left_eq_self.mp (Prod.mk.inj again).2)
          have merged : scan (textJoin (a, b)) (front ++ a :: b :: back) =
              scan (textJoin (a, b)) (front ++ (a ++ b) :: back) := by
            apply scan_first _ (textJoin_some.mpr ⟨rfl, rfl⟩) settled
            intro x' y' inside
            rw [textJoin_none]
            rintro ⟨⟩
            exact absurd (earliest a b priority inside known) (Nat.lt_irrefl _)
          have text : (front ++ (a ++ b) :: back).flatten = (front ++ a :: b :: back).flatten := by simp
          have unseen' : ∀ x y, [x, y] <:+: front ++ (a ++ b) :: back → (x, y) ∉ seen := by
            intro x y inside
            rcases pair_infix_around inside with before | ⟨⟨front', rfl⟩, rfl⟩ | ⟨rfl, back', rfl⟩ | behind
            · exact unseen x y (before.trans (List.prefix_append _ _).isInfix)
            · have late := turn.lateRight x ⟨front'.flatten, back.flatten, by simp⟩
              exact fun member => late (mem_cons_of_mem _ member)
            · have late := turn.lateLeft y ⟨front.flatten, back'.flatten, by simp⟩
              exact fun member => late (mem_cons_of_mem _ member)
            · exact unseen x y (behind.trans ⟨front ++ [a, b], [], by simp⟩)
          rw [merged, next]
          apply ih (by rwa [text]) unseen'
          rw [length_append, length_cons] at enough ⊢
          rw [length_cons] at enough
          omega
        · apply done unseen enough
          rintro x' y' inside ⟨⟩
          have lower := best.best a b priority inside known
          have here : [x, y] <:+: symbols := ⟨front, back, by rw [best.split]; simp⟩
          have upper := turn.least x y priority other (unseen x y here) same best.found known
          omega

/-- The loop keeps the text. -/
theorem mergeLoop_flatten (merges : BpeMerges) (bound : Nat) (symbols : List (List Char)) :
    (mergeLoop merges bound symbols).flatten = symbols.flatten := by
  induction bound generalizing symbols with
  | zero => rfl
  | succ bound ih =>
      rcases mergeLoop_cases merges bound symbols with ⟨done, _⟩ | ⟨front, x, y, back, _, best, next⟩
      · rw [done]
      · rw [next, ih, best.split]
        simp

/-- The loop keeps a symbol or makes it from a pair. -/
theorem mergeLoop_symbols (merges : BpeMerges) (bound : Nat) (symbols : List (List Char)) :
    ∀ symbol ∈ mergeLoop merges bound symbols, symbol ∈ symbols ∨
      ∃ x y priority, merges.getMergePriority x y = some priority ∧ symbol = x ++ y := by
  induction bound generalizing symbols with
  | zero => exact fun symbol member => Or.inl member
  | succ bound ih =>
      intro symbol member
      rcases mergeLoop_cases merges bound symbols with ⟨done, _⟩ | ⟨front, x, y, back, priority, best, next⟩
      · rw [done] at member
        exact Or.inl member
      · rw [next] at member
        rcases ih _ symbol member with old | product
        · rw [best.split]
          rcases mem_append.mp old with before | old
          · exact Or.inl (mem_append_left _ before)
          · rcases mem_cons.mp old with rfl | behind
            · exact Or.inr ⟨x, y, priority, best.found, rfl⟩
            · exact Or.inl (mem_append_right _ (mem_cons_of_mem _ (mem_cons_of_mem _ behind)))
        · exact Or.inr product

/-- The merges are added in their order. -/
def addMerges (table : BpeMerges) (rules : List ((List Char × List Char) × UInt32)) : BpeMerges :=
  rules.foldl (fun table rule => table.addMerge rule.1.1 rule.1.2 rule.2) table

/-- The order lists the pairs that have a merge. -/
def Ordered (table : BpeMerges) : Prop := ∀ pair, pair ∈ table.merges ↔ pair ∈ table.mergeOrder

theorem addMerge_ordered (ordered : Ordered table) (pair : List Char × List Char) (id : UInt32) :
    Ordered (table.addMerge pair.1 pair.2 id) ∧ (table.addMerge pair.1 pair.2 id).mergeOrder =
        if pair ∈ table.mergeOrder then table.mergeOrder else table.mergeOrder ++ [pair] := by
  have same : (table.addMerge pair.1 pair.2 id).mergeOrder =
      if pair ∈ table.mergeOrder then table.mergeOrder else table.mergeOrder ++ [pair] := by
    rw [BpeMerges.addMerge]
    simp only [Prod.mk.eta, ordered pair]
  refine ⟨fun other => ?_, same⟩
  rw [same]
  change other ∈ table.merges.insert pair id ↔ _
  rw [AList.mem_insert, ordered other]
  split
  case isTrue present =>
    constructor
    · rintro (rfl | member)
      · exact present
      · exact member
    · exact Or.inr
  case isFalse => rw [mem_append, mem_singleton, or_comm]

theorem addMerges_ordered (ordered : Ordered table) (rules : List ((List Char × List Char) × UInt32)) :
    Ordered (addMerges table rules) ∧ table.mergeOrder <+: (addMerges table rules).mergeOrder ∧
      ∀ pair, pair ∈ (addMerges table rules).mergeOrder ↔ pair ∈ table.mergeOrder ∨ pair ∈ rules.map Prod.fst := by
  induction rules generalizing table with
  | nil => exact ⟨ordered, prefix_refl _, fun pair => by simp [addMerges]⟩
  | cons rule rules ih =>
      obtain ⟨ordered', order⟩ := addMerge_ordered ordered rule.1 rule.2
      obtain ⟨last, grown, members⟩ := ih ordered'
      refine ⟨last, List.IsPrefix.trans ?_ grown, fun pair => ?_⟩
      · rw [order]
        split
        · exact prefix_refl _
        · exact List.prefix_append _ _
      · change pair ∈ (addMerges (table.addMerge rule.1.1 rule.1.2 rule.2) rules).mergeOrder ↔ _
        rw [members, order, map_cons, mem_cons]
        split
        case isTrue present =>
          constructor
          · rintro (member | member)
            · exact Or.inl member
            · exact Or.inr (Or.inr member)
          · rintro (member | rfl | member)
            · exact Or.inl member
            · exact Or.inl present
            · exact Or.inr member
        case isFalse => rw [mem_append, mem_singleton, or_assoc]

/-- A merge that is new comes before all merges that are not before it. -/
theorem priority_least {front back : List ((List Char × List Char) × UInt32)} {a b : List Char} {id : UInt32}
    (fresh : (a, b) ∉ front.map Prod.fst) :
    (∃ priority, (addMerges BpeMerges.new (front ++ ((a, b), id) :: back)).getMergePriority a b = some priority) ∧
      ∀ x y priority other, (x, y) ∉ front.map Prod.fst → (x, y) ≠ (a, b) →
        (addMerges BpeMerges.new (front ++ ((a, b), id) :: back)).getMergePriority x y = some other →
        (addMerges BpeMerges.new (front ++ ((a, b), id) :: back)).getMergePriority a b = some priority →
        priority < other := by
  have start : Ordered BpeMerges.new := fun pair => by simp [BpeMerges.new]
  obtain ⟨ordered, _, members⟩ := addMerges_ordered start front
  have fresh' : (a, b) ∉ (addMerges BpeMerges.new front).mergeOrder := by
    rw [members]
    rintro (none | member)
    · cases none
    · exact fresh member
  obtain ⟨ordered', order⟩ := addMerge_ordered ordered (a, b) id
  rw [if_neg fresh'] at order
  obtain ⟨last, ⟨later, grown⟩, _⟩ := addMerges_ordered ordered' back
  have whole : addMerges BpeMerges.new (front ++ ((a, b), id) :: back) =
      addMerges ((addMerges BpeMerges.new front).addMerge a b id) back := foldl_append
  rw [order, append_assoc, singleton_append] at grown
  rw [whole]
  have absent (pair : List Char × List Char) (unseen : pair ∉ front.map Prod.fst) :
      (addMerges BpeMerges.new front).mergeOrder.findIdx? (fun other => other = pair) = none := by
    rw [findIdx?_eq_none_iff]
    intro other member
    apply decide_eq_false
    rintro rfl
    rcases (members other).mp member with none | seen
    · cases none
    · exact unseen seen
  have here : (addMerges ((addMerges BpeMerges.new front).addMerge a b id) back).getMergePriority a b =
      some (addMerges BpeMerges.new front).mergeOrder.length := by
    rw [BpeMerges.getMergePriority, if_pos, ← grown, findIdx?_append, absent _ fresh, Option.none_or,
      findIdx?_cons, if_pos (decide_eq_true rfl), Option.map_some, Nat.zero_add]
    rw [last, ← grown]
    exact mem_append_right _ mem_cons_self
  refine ⟨⟨_, here⟩, ?_⟩
  intro x y priority other unseen different found found'
  rw [here] at found'
  cases found'
  rw [BpeMerges.getMergePriority] at found
  split at found
  case isFalse => cases found
  case isTrue =>
    have apart : ¬decide ((a, b) = (x, y)) = true := fun same => different (of_decide_eq_true same).symm
    rw [← grown, findIdx?_append, absent _ unseen, Option.none_or, findIdx?_cons, if_neg apart,
      Option.map_map, Option.map_eq_some_iff] at found
    obtain ⟨index, _, rfl⟩ := found
    change _ < index + 1 + _
    omega

/-- Only the added pairs have a priority. -/
theorem getMergePriority_mem {rules : List ((List Char × List Char) × UInt32)}
    (found : (addMerges BpeMerges.new rules).getMergePriority x y = some priority) : (x, y) ∈ rules.map Prod.fst := by
  have start : Ordered BpeMerges.new := fun pair => by simp [BpeMerges.new]
  obtain ⟨ordered, _, members⟩ := addMerges_ordered start rules
  rw [BpeMerges.getMergePriority] at found
  split at found
  case isFalse => cases found
  case isTrue present =>
    rcases (members (x, y)).mp ((ordered _).mp present) with none | member
    · cases none
    · exact member

end Pictor.Bpe
