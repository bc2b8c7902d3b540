import Mathlib
import Pictor.Library.LabelledGraph
import Pictor.Proof.Decoding.PatternText

namespace Pictor.RegexNfa

open OpenGraph

/-- A slot of a state with its letter and its target. -/
def NfaState.slot : NfaState → Option Char → Option Nat → Prop
  | .literal ch next, x, target => x = some ch ∧ target = next
  | .any next, x, target => (∃ ch, x = some ch) ∧ target = next
  | .split a b, x, target => x = none ∧ (target = a ∨ target = b)
  | .bracket chars ranges negated next, x, target =>
      (∃ ch, x = some ch ∧ inBracket chars ranges negated ch = true) ∧ target = next
  | .accept, _, _ => False

/-- A state with a letter has no target yet. -/
def NfaState.Open : NfaState → Prop
  | .literal _ next => next = none
  | .any next => next = none
  | .split _ _ => True
  | .bracket _ _ _ next => next = none
  | .accept => False

/-- The dangling slots count only where the fragment lists their state. -/
def live (states : List NfaState) (outs : List Nat) : Slots Nat Char := fun p x next =>
  ∃ state, states[p]? = some state ∧ state.slot x next ∧ (next = none → p ∈ outs)

/-- A fragment has its states in a region, and its dangling slots have the words of the language. -/
structure Holds (states : List NfaState) (region : Set Nat) (frag : Fragment) (language : Language Char) : Prop where
  start : frag.start ∈ region
  outs : ∀ p ∈ frag.outs, p ∈ region
  distinct : frag.outs.Nodup
  opened : ∀ p ∈ frag.outs, ∀ state, states[p]? = some state → state.Open
  bounded : ∀ p ∈ region, p < states.length
  closed : Closed (live states frag.outs) region
  words : exits (live states frag.outs) frag.start = language

/-- The states outside a region stay the same, and no state is lost. -/
structure Keeps (states states' : List NfaState) (used : Set Nat) : Prop where
  longer : states.length ≤ states'.length
  same : ∀ p < states.length, p ∉ used → states'[p]? = states[p]?

variable {states states' states'' : List NfaState} {region region' used used' : Set Nat} {frag : Fragment}
  {language language' : Language Char} {target p : Nat} {outs outs' : List Nat} {state state' : NfaState}

theorem Keeps.refl (states : List NfaState) (used : Set Nat) : Keeps states states used := ⟨le_rfl, fun _ _ _ => rfl⟩

theorem Keeps.trans (first : Keeps states states' used) (second : Keeps states' states'' used')
    (new : ∀ p ∈ used', p ∈ used ∨ states.length ≤ p) : Keeps states states'' used where
  longer := first.longer.trans second.longer
  same p inside outside := by
    have apart : p ∉ used' := fun member => (new p member).elim outside (Nat.not_le_of_lt inside)
    rw [second.same p (Nat.lt_of_lt_of_le inside first.longer) apart, first.same p inside outside]

theorem Keeps.widen (keeps : Keeps states states' used) (wider : ∀ p ∈ used, p ∈ used') : Keeps states states' used' :=
  ⟨keeps.longer, fun p inside outside => keeps.same p inside fun member => outside (wider p member)⟩

theorem Keeps.append (states more : List NfaState) (used : Set Nat) : Keeps states (states ++ more) used where
  longer := by
    rw [List.length_append]
    exact Nat.le_add_right _ _
  same p inside _ := List.getElem?_append_left inside

/-- A change at distinct indices changes each of these states once. -/
theorem modifyAll_getElem? (change : NfaState → NfaState) (distinct : outs.Nodup) (p : Nat) :
    (outs.foldl (fun states idx => states.modify idx change) states)[p]? =
      if p ∈ outs then states[p]?.map change else states[p]? := by
  induction outs generalizing states with
  | nil => rfl
  | cons idx outs ih =>
      obtain ⟨fresh, distinct⟩ := List.nodup_cons.mp distinct
      rw [List.foldl_cons, ih distinct, List.getElem?_modify]
      by_cases here : idx = p
      · subst here
        simp [fresh]
      · simp [here, Ne.symm here]

theorem length_modifyAll (change : NfaState → NfaState) (outs : List Nat) (states : List NfaState) :
    (outs.foldl (fun states idx => states.modify idx change) states).length = states.length := by
  induction outs generalizing states with
  | nil => rfl
  | cons idx outs ih => rw [List.foldl_cons, ih, List.length_modify]

theorem Keeps.modifyAll (change : NfaState → NfaState) (distinct : outs.Nodup) (inside : ∀ p ∈ outs, p ∈ used) :
    Keeps states (outs.foldl (fun states idx => states.modify idx change) states) used where
  longer := (length_modifyAll change outs states).ge
  same p _ outside := by
    rw [modifyAll_getElem? change distinct, if_neg fun member => outside (inside p member)]

/-- The open slots of a state now lead to a target. -/
structure Led (target : Nat) (state state' : NfaState) : Prop where
  leads : ∀ x q, state'.slot x (some q) ↔ state.slot x (some q) ∨ (q = target ∧ state.slot x none)

theorem Led.patch (target : Nat) (opened : state.Open) : Led target state (state.patch target) := by
  constructor
  intro x q
  cases state with
  | split a b =>
      cases a <;> cases b <;> simp [NfaState.patch, NfaState.slot] <;> tauto
  | accept => exact opened.elim
  | _ =>
      cases opened
      simp [NfaState.patch, NfaState.slot, and_comm]

theorem Led.connect (target : Nat) (opened : state.Open) : Led target state (state.connect target) := by
  constructor
  intro x q
  cases state with
  | split a b =>
      cases a <;> cases b <;> simp [NfaState.connect, NfaState.slot] <;> tauto
  | accept => exact opened.elim
  | _ =>
      cases opened
      simp [NfaState.connect, NfaState.slot, and_comm]

/-- The same states with the same dangling slots have the same live slots. -/
theorem live_agree (same : states'[p]? = states[p]?) (listed : p ∈ outs' ↔ p ∈ outs) (x : Option Char) (next : Option Nat) :
    live states' outs' p x next ↔ live states outs p x next := by
  rw [live, live, same, listed]

variable (holds : Holds states region frag language)
include holds

/-- A fragment with other dangling slots outside its region keeps its words. -/
theorem Holds.agree (same : ∀ p ∈ region, states'[p]? = states[p]?) (listed : ∀ p ∈ region, (p ∈ outs' ↔ p ∈ frag.outs)) :
    Closed (live states' outs') region ∧ exits (live states' outs') frag.start = language := by
  have agrees : ∀ p x next, p ∈ region → (live states' outs' p x next ↔ live states frag.outs p x next) :=
    fun p x next inside => live_agree (same p inside) (listed p inside) x next
  constructor
  · intro p x q inside slot
    exact holds.closed p x q inside ((agrees p x _ inside).mp slot)
  · rw [exits_agree holds.closed agrees holds.start, holds.words]

/-- A fragment stays when its states stay. -/
theorem Holds.keep (keeps : Keeps states states' used) (apart : Disjoint region used) :
    Holds states' region frag language := by
  have same : ∀ p ∈ region, states'[p]? = states[p]? := fun p inside =>
    keeps.same p (holds.bounded p inside) (Set.disjoint_left.mp apart inside)
  obtain ⟨closed, words⟩ := holds.agree same fun p _ => Iff.rfl
  refine ⟨holds.start, holds.outs, holds.distinct, ?_, ?_, closed, words⟩
  · intro p listed state found
    rw [same p (holds.outs p listed)] at found
    exact holds.opened p listed state found
  · intro p inside
    exact Nat.lt_of_lt_of_le (holds.bounded p inside) keeps.longer

/-- The dangling slots of a fragment are plugged into a target. -/
theorem Holds.plugged
    (changed : ∀ p ∈ region, p ∈ frag.outs → ∀ state, states[p]? = some state → state.Open → ∃ state', states'[p]? = some state' ∧ Led target state state')
    (same : ∀ p ∈ region, p ∉ frag.outs → states'[p]? = states[p]?) (apart : ∀ p ∈ region, p ∉ outs') :
    Plugged (live states frag.outs) (live states' outs') region target where
  closed := holds.closed
  leads p x q inside := by
    by_cases listed : p ∈ frag.outs
    · have found := List.getElem?_eq_getElem (holds.bounded p inside)
      obtain ⟨state', found', led⟩ := changed p inside listed _ found (holds.opened p listed _ found)
      simp only [live, found, found', Option.some.injEq, exists_eq_left', reduceCtorEq, false_implies, and_true, listed,
        implies_true]
      exact led.leads x q
    · simp only [live, same p inside listed, reduceCtorEq, false_implies, and_true, listed]
      constructor
      · exact Or.inl
      · rintro (slot | ⟨_, _, _, _, wrong⟩)
        · exact slot
        · exact (wrong trivial).elim
  tight := by
    rintro p x inside ⟨_, _, _, listed⟩
    exact apart p inside (listed rfl)

omit holds

theorem getElem?_last (states : List NfaState) (state : NfaState) :
    (states ++ [state])[states.length]? = some state := by
  simp

theorem live_last {x : Option Char} {next : Option Nat} : live (states ++ [state]) outs states.length x next ↔
    state.slot x next ∧ (next = none → states.length ∈ outs) := by
  simp [live]

/-- A new state without a target is a fragment of its own. -/
theorem Holds.alone (dangles : ∀ x q, ¬ state.slot x (some q)) (opened : state.Open) :
    Holds (states ++ [state]) {states.length} ⟨states.length, [states.length]⟩
      {word | ∃ x, state.slot x none ∧ word = x.toList} where
  start := rfl
  outs p listed := List.mem_singleton.mp listed
  distinct := List.nodup_singleton _
  opened := by
    intro p listed state' found
    rw [List.mem_singleton.mp listed, getElem?_last] at found
    cases found
    exact opened
  bounded := by
    rintro p rfl
    rw [List.length_append, List.length_singleton]
    exact Nat.lt_succ_self _
  closed := by
    rintro p x q rfl slot
    exact absurd (live_last.mp slot).1 (dangles x q)
  words := by
    ext word
    rw [exits_dangling fun x q slot => dangles x q (live_last.mp slot).1]
    constructor
    · rintro ⟨x, slot, rfl⟩
      exact ⟨x, (live_last.mp slot).1, rfl⟩
    · rintro ⟨x, slot, rfl⟩
      exact ⟨x, live_last.mpr ⟨slot, fun _ => List.mem_singleton_self _⟩, rfl⟩

/-- A new state with letters and without a target has the words of its letters. -/
theorem Holds.single {set : Set Char} (slots : ∀ x next, state.slot x next ↔ next = none ∧ ∃ ch ∈ set, x = some ch)
    (opened : state.Open) :
    Holds (states ++ [state]) {states.length} ⟨states.length, [states.length]⟩ (letters set) := by
  have alone := @Holds.alone states state (fun x q slot => nomatch ((slots x (some q)).mp slot).1) opened
  have same : ({word | ∃ x, state.slot x none ∧ word = x.toList} : Language Char) = letters set := by
    ext word
    constructor
    · rintro ⟨x, slot, rfl⟩
      obtain ⟨_, ch, member, rfl⟩ := (slots x none).mp slot
      exact ⟨ch, member, rfl⟩
    · rintro ⟨ch, member, rfl⟩
      exact ⟨some ch, (slots _ _).mpr ⟨rfl, ch, member, rfl⟩, rfl⟩
  rwa [same] at alone

theorem Holds.empty : Holds (states ++ [.split none none]) {states.length} ⟨states.length, [states.length]⟩ 1 := by
  have alone := @Holds.alone states (.split none none) (fun x q slot => by simp [NfaState.slot] at slot) trivial
  have same : ({word | ∃ x, (NfaState.split none none).slot x none ∧ word = x.toList} : Language Char) =
      (1 : Language Char) := by
    apply Language.ext
    intro word
    rw [Language.mem_one]
    constructor
    · rintro ⟨x, ⟨rfl, _⟩, rfl⟩
      rfl
    · rintro rfl
      exact ⟨none, ⟨rfl, Or.inl rfl⟩, rfl⟩
  rwa [same] at alone

variable (holds : Holds states region frag language)
include holds

theorem Holds.apart : states.length ∉ region :=
  fun inside => absurd (holds.bounded _ inside) (Nat.lt_irrefl _)

theorem Holds.outside : states.length ∉ frag.outs :=
  fun listed => holds.apart (holds.outs _ listed)

theorem Holds.appended (more : List NfaState) : ∀ p ∈ region, (states ++ more)[p]? = states[p]? := fun p inside =>
  List.getElem?_append_left (holds.bounded p inside)

/-- A split in front of a fragment makes it optional. -/
theorem Holds.optional :
    Holds (quantifierOptional states frag).2 (insert states.length region) (quantifierOptional states frag).1
      (language + 1) := by
  have listed : ∀ p ∈ region, (p ∈ frag.outs ++ [states.length] ↔ p ∈ frag.outs) := by
    intro p inside
    rw [List.mem_append, List.mem_singleton]
    refine or_iff_left ?_
    rintro rfl
    exact holds.apart inside
  obtain ⟨closed, words⟩ := holds.agree (holds.appended [.split (some frag.start) none]) listed
  refine ⟨Set.mem_insert _ _, ?_, ?_, ?_, ?_, ?_, ?_⟩
  · intro p member
    rcases List.mem_append.mp member with old | new
    · exact Set.mem_insert_of_mem _ (holds.outs p old)
    · exact Or.inl (List.mem_singleton.mp new)
  · exact List.nodup_append.mpr ⟨holds.distinct, List.nodup_singleton _, by
      rintro p old q new rfl
      rw [List.mem_singleton.mp new] at old
      exact holds.outside old⟩
  · intro p member state found
    rcases List.mem_append.mp member with old | new
    · rw [quantifierOptional, holds.appended _ p (holds.outs p old)] at found
      exact holds.opened p old state found
    · rw [List.mem_singleton.mp new, quantifierOptional, getElem?_last] at found
      cases found
      trivial
  · intro p inside
    rw [quantifierOptional, List.length_append, List.length_singleton]
    rcases inside with rfl | inside
    · exact Nat.lt_succ_self _
    · exact Nat.lt_succ_of_lt (holds.bounded p inside)
  · rintro p x q (rfl | inside) slot
    · obtain ⟨⟨_, target | wrong⟩, _⟩ := live_last.mp slot
      · cases target
        exact Set.mem_insert_of_mem _ holds.start
      · cases wrong
    · exact Set.mem_insert_of_mem _ (closed p x q inside slot)
  · have forks : Forks (live (quantifierOptional states frag).2 (quantifierOptional states frag).1.outs)
        states.length frag.start := by
      intro x next
      refine live_last.trans ?_
      rw [NfaState.slot, and_iff_left]
      exact fun _ => List.mem_append_right _ (List.mem_singleton_self _)
    exact forks.optional.trans (congrArg (· + 1) words)

/-- The facts about a fragment that is patched back to a split. -/
theorem Holds.looped :
    let states' := patch (states ++ [.split (some frag.start) none]) frag.outs states.length
    Plugged (live states frag.outs) (live states' [states.length]) region states.length ∧
      Forks (live states' [states.length]) states.length frag.start ∧
      states'.length = states.length + 1 ∧ states'[states.length]? = some (.split (some frag.start) none) := by
  intro states'
  have found (p : Nat) : states'[p]? = if p ∈ frag.outs
      then (states ++ [.split (some frag.start) none])[p]?.map (NfaState.patch states.length)
      else (states ++ [.split (some frag.start) none])[p]? := modifyAll_getElem? _ holds.distinct p
  have last : states'[states.length]? = some (.split (some frag.start) none) := by
    rw [found, if_neg holds.outside, getElem?_last]
  refine ⟨holds.plugged ?_ ?_ ?_, ?_, ?_, last⟩
  · intro p inside listed state known opened
    refine ⟨_, ?_, Led.patch states.length opened⟩
    rw [found, if_pos listed, holds.appended _ p inside, known]
    rfl
  · intro p inside unlisted
    rw [found, if_neg unlisted, holds.appended _ p inside]
  · rintro p inside listed
    rw [List.mem_singleton.mp listed] at inside
    exact holds.apart inside
  · intro x next
    simp only [live, last, Option.some.injEq, exists_eq_left', NfaState.slot, List.mem_singleton, implies_true, and_true]
  · exact (length_modifyAll _ _ _).trans (List.length_append ..)

/-- The region with the split is closed. -/
theorem Holds.loopClosed :
    Closed (live (patch (states ++ [.split (some frag.start) none]) frag.outs states.length) [states.length])
      (insert states.length region) := by
  obtain ⟨plugged, forks, _, _⟩ := holds.looped
  rintro p x q (rfl | inside) slot
  · obtain ⟨_, target | wrong⟩ := (forks x (some q)).mp slot
    · cases target
      exact Set.mem_insert_of_mem _ holds.start
    · cases wrong
  · rcases (plugged.leads p x q inside).mp slot with within | ⟨rfl, _⟩
    · exact Set.mem_insert_of_mem _ (plugged.closed p x q inside within)
    · exact Set.mem_insert _ _

/-- A fragment that is patched back to a split repeats, from the split or from its own start. -/
theorem Holds.repeats {start : Nat} (inside : start ∈ insert states.length region)
    (words : exits (live (patch (states ++ [.split (some frag.start) none]) frag.outs states.length) [states.length]) start = language') :
    Holds (patch (states ++ [.split (some frag.start) none]) frag.outs states.length) (insert states.length region)
      ⟨start, [states.length]⟩ language' := by
  obtain ⟨_, _, size, last⟩ := holds.looped
  refine ⟨inside, ?_, List.nodup_singleton _, ?_, ?_, holds.loopClosed, words⟩
  · intro p listed
    exact Or.inl (List.mem_singleton.mp listed)
  · intro p listed state found
    rw [List.mem_singleton.mp listed, last] at found
    cases found
    trivial
  · rintro p (rfl | inside)
    · exact size ▸ Nat.lt_succ_self _
    · exact size ▸ Nat.lt_succ_of_lt (holds.bounded p inside)

theorem Holds.star : Holds (quantifierStar states frag).2 (insert states.length region) (quantifierStar states frag).1
      (KStar.kstar language) := by
  obtain ⟨plugged, forks, _, _⟩ := holds.looped
  apply holds.repeats (Set.mem_insert _ _)
  rw [plugged.loop forks holds.start, holds.words]

theorem Holds.plus : Holds (quantifierPlus states frag).2 (insert states.length region) (quantifierPlus states frag).1
      (language * KStar.kstar language) := by
  obtain ⟨plugged, forks, _, _⟩ := holds.looped
  apply holds.repeats (Set.mem_insert_of_mem _ holds.start)
  rw [plugged.exits_eq holds.start, plugged.loop forks holds.start, holds.words]

omit holds

variable {first second : Fragment} {firsts seconds : Set Nat}

/-- Two fragments are joined where the first one dangles. -/
theorem Holds.connect (holds : Holds states firsts first language) (holds' : Holds states seconds second language')
    (apart : Disjoint firsts seconds) :
    Holds (connect states first.outs second.start) (firsts ∪ seconds) ⟨first.start, second.outs⟩ (language * language') ∧
      Keeps states (connect states first.outs second.start) firsts := by
  have keeps : Keeps states (RegexNfa.connect states first.outs second.start) firsts :=
    Keeps.modifyAll _ holds.distinct holds.outs
  have kept := holds'.keep keeps apart.symm
  have found (p : Nat) : (RegexNfa.connect states first.outs second.start)[p]? = if p ∈ first.outs
      then states[p]?.map (NfaState.connect second.start) else states[p]? := modifyAll_getElem? _ holds.distinct p
  have plugged : Plugged (live states first.outs)
      (live (RegexNfa.connect states first.outs second.start) second.outs) firsts second.start := by
    apply holds.plugged
    · intro p inside listed state known opened
      refine ⟨_, ?_, Led.connect second.start opened⟩
      rw [found, if_pos listed, known]
      rfl
    · intro p inside unlisted
      rw [found, if_neg unlisted]
    · exact fun p inside listed => Set.disjoint_left.mp apart inside (kept.outs p listed)
  refine ⟨⟨Or.inl holds.start, fun p listed => Or.inr (kept.outs p listed), kept.distinct, kept.opened, ?_, ?_, ?_⟩, keeps⟩
  · rintro p (inside | inside)
    · exact Nat.lt_of_lt_of_le (holds.bounded p inside) keeps.longer
    · exact kept.bounded p inside
  · rintro p x q (inside | inside) slot
    · rcases (plugged.leads p x q inside).mp slot with within | ⟨rfl, _⟩
      · exact Or.inl (plugged.closed p x q inside within)
      · exact Or.inr kept.start
    · exact Or.inr (kept.closed p x q inside slot)
  · rw [plugged.exits_eq holds.start, holds.words, kept.words]

/-- Two fragments are the choices of a new split. -/
theorem Holds.choice (holds : Holds states firsts first language) (holds' : Holds states seconds second language')
    (apart : Disjoint firsts seconds) :
    Holds (states ++ [.split (some first.start) (some second.start)]) (insert states.length (firsts ∪ seconds))
      ⟨states.length, first.outs ++ second.outs⟩ (language + language') := by
  have unlisted : ∀ p ∈ firsts, (p ∈ first.outs ++ second.outs ↔ p ∈ first.outs) := by
    intro p inside
    rw [List.mem_append]
    exact or_iff_left fun listed => Set.disjoint_left.mp apart inside (holds'.outs p listed)
  have unlisted' : ∀ p ∈ seconds, (p ∈ first.outs ++ second.outs ↔ p ∈ second.outs) := by
    intro p inside
    rw [List.mem_append]
    exact or_iff_right fun listed => Set.disjoint_left.mp apart (holds.outs p listed) inside
  obtain ⟨closed, words⟩ := holds.agree (holds.appended [.split (some first.start) (some second.start)]) unlisted
  obtain ⟨closed', words'⟩ := holds'.agree (holds'.appended [.split (some first.start) (some second.start)]) unlisted'
  refine ⟨Set.mem_insert _ _, ?_, ?_, ?_, ?_, ?_, ?_⟩
  · intro p member
    rcases List.mem_append.mp member with old | old
    · exact Set.mem_insert_of_mem _ (Or.inl (holds.outs p old))
    · exact Set.mem_insert_of_mem _ (Or.inr (holds'.outs p old))
  · refine List.nodup_append.mpr ⟨holds.distinct, holds'.distinct, ?_⟩
    rintro p listed q listed' rfl
    exact Set.disjoint_left.mp apart (holds.outs p listed) (holds'.outs p listed')
  · intro p member state found
    rcases List.mem_append.mp member with old | old
    · rw [holds.appended _ p (holds.outs p old)] at found
      exact holds.opened p old state found
    · rw [holds'.appended _ p (holds'.outs p old)] at found
      exact holds'.opened p old state found
  · intro p inside
    rw [List.length_append, List.length_singleton]
    rcases inside with rfl | inside | inside
    · exact Nat.lt_succ_self _
    · exact Nat.lt_succ_of_lt (holds.bounded p inside)
    · exact Nat.lt_succ_of_lt (holds'.bounded p inside)
  · rintro p x q (rfl | inside | inside) slot
    · obtain ⟨⟨_, target | target⟩, _⟩ := live_last.mp slot
      · cases target
        exact Set.mem_insert_of_mem _ (Or.inl holds.start)
      · cases target
        exact Set.mem_insert_of_mem _ (Or.inr holds'.start)
    · exact Set.mem_insert_of_mem _ (Or.inl (closed p x q inside slot))
    · exact Set.mem_insert_of_mem _ (Or.inr (closed' p x q inside slot))
  · rw [← words, ← words']
    apply exits_both
    intro x next
    refine live_last.trans ?_
    rw [NfaState.slot, and_iff_left_iff_imp]
    rintro ⟨_, target | target⟩ rfl
    · cases target
    · cases target

/-- The fragments of a list have their languages in regions without a common state. -/
inductive HoldsAll (states : List NfaState) : Set Nat → List Fragment → List (Language Char) → Prop
  | nil : HoldsAll states ∅ [] []
  | cons {region used : Set Nat} {frag : Fragment} {frags : List Fragment} {language : Language Char}
      {languages : List (Language Char)} : Holds states region frag language → HoldsAll states used frags languages →
      Disjoint region used → HoldsAll states (region ∪ used) (frag :: frags) (language :: languages)

variable {frags : List Fragment} {languages : List (Language Char)}

variable (all : HoldsAll states used frags languages)
include all

theorem HoldsAll.bounded : ∀ p ∈ used, p < states.length := by
  induction all with
  | nil => exact fun p wrong => wrong.elim
  | cons holds _ _ ih =>
      rintro p (inside | inside)
      · exact holds.bounded p inside
      · exact ih p inside

theorem HoldsAll.keep (keeps : Keeps states states' used') (apart : Disjoint used used') :
    HoldsAll states' used frags languages := by
  induction all with
  | nil => exact .nil
  | cons holds _ disjoint ih =>
      obtain ⟨first, rest⟩ := Set.disjoint_union_left.mp apart
      exact .cons (holds.keep keeps first) (ih rest) disjoint

theorem HoldsAll.snoc (holds : Holds states region frag language) (apart : Disjoint used region) :
    HoldsAll states (used ∪ region) (frags ++ [frag]) (languages ++ [language]) := by
  induction all with
  | nil =>
      have one := HoldsAll.cons holds .nil (Set.disjoint_empty _)
      rwa [Set.union_empty, ← Set.empty_union region] at one
  | cons holds' _ disjoint ih =>
      obtain ⟨first, rest⟩ := Set.disjoint_union_left.mp apart
      rw [Set.union_assoc]
      exact .cons holds' (ih rest) (Set.disjoint_union_right.mpr ⟨disjoint, first⟩)

omit all

/-- The fold joins the fragments, and their languages multiply. -/
theorem Holds.concatRest (holds : Holds states region frag language) (all : HoldsAll states used frags languages)
    (apart : Disjoint region used) :
    Holds (concatRest states frag frags).2 (region ∪ used) (concatRest states frag frags).1 (language * languages.prod) ∧
      Keeps states (concatRest states frag frags).2 (region ∪ used) := by
  induction frags generalizing states region used frag language languages with
  | nil =>
      cases all
      rw [Set.union_empty, List.prod_nil, mul_one]
      exact ⟨holds, Keeps.refl _ _⟩
  | cons next frags ih =>
      rcases all with _ | ⟨holds', all, disjoint⟩
      obtain ⟨first, rest⟩ := Set.disjoint_union_right.mp apart
      obtain ⟨joined, keeps⟩ := holds.connect holds' first
      obtain ⟨whole, keeps'⟩ := ih joined (all.keep keeps rest.symm) (Set.disjoint_union_left.mpr ⟨rest, disjoint⟩)
      rw [← Set.union_assoc, List.prod_cons, ← mul_assoc]
      refine ⟨whole, Keeps.trans ?_ keeps' fun p inside => Or.inl inside⟩
      exact keeps.widen fun p inside => Or.inl (Or.inl inside)

/-- A sequence of fragments is a fragment. Only their own states change. -/
theorem HoldsAll.concat (all : HoldsAll states used frags languages) :
    ∃ region, Holds (concatFragments states frags).2 region (concatFragments states frags).1 languages.prod ∧
      (∀ p ∈ region, p ∈ used ∨ states.length ≤ p) ∧ Keeps states (concatFragments states frags).2 used := by
  rcases all with _ | ⟨holds, all, disjoint⟩
  · refine ⟨_, Holds.empty, ?_, Keeps.append _ _ _⟩
    rintro p rfl
    exact Or.inr le_rfl
  · obtain ⟨whole, keeps⟩ := holds.concatRest all disjoint
    rw [List.prod_cons]
    exact ⟨_, whole, fun p inside => Or.inl inside, keeps⟩

/-- The fold adds a split for each further choice, and the languages add up. -/
theorem Holds.alternationRest (holds : Holds states region frag language) (all : HoldsAll states used frags languages)
    (apart : Disjoint region used) :
    ∃ region', Holds (alternationRest states frag frags).2 region' (alternationRest states frag frags).1
        (language + languages.sum) ∧ (∀ p ∈ region', p ∈ region ∨ p ∈ used ∨ states.length ≤ p) ∧
      Keeps states (alternationRest states frag frags).2 ∅ := by
  induction frags generalizing states region used frag language languages with
  | nil =>
      cases all
      rw [List.sum_nil, add_zero]
      exact ⟨region, holds, fun p inside => Or.inl inside, Keeps.refl _ _⟩
  | cons next frags ih =>
      rcases all with _ | ⟨holds', all, disjoint⟩
      obtain ⟨first, rest⟩ := Set.disjoint_union_right.mp apart
      have keeps := Keeps.append states [.split (some frag.start) (some next.start)] ∅
      have later : Disjoint (insert states.length (_ ∪ _)) _ := Set.disjoint_insert_left.mpr
        ⟨fun inside => absurd (all.bounded _ inside) (Nat.lt_irrefl _), Set.disjoint_union_left.mpr ⟨rest, disjoint⟩⟩
      obtain ⟨region', whole, new, keeps'⟩ :=
        ih (holds.choice holds' first) (all.keep keeps (Set.disjoint_empty _)) later
      rw [List.sum_cons, ← add_assoc]
      refine ⟨region', whole, ?_, keeps.trans keeps' fun p wrong => wrong.elim⟩
      intro p inside
      rcases new p inside with (rfl | old | old) | old | old
      · exact Or.inr (Or.inr le_rfl)
      · exact Or.inl old
      · exact Or.inr (Or.inl (Or.inl old))
      · exact Or.inr (Or.inl (Or.inr old))
      · exact Or.inr (Or.inr (keeps.longer.trans old))

end Pictor.RegexNfa
