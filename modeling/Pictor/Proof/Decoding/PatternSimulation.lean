import Pictor.Proof.Decoding.PatternNfa

namespace Pictor.RegexNfa
open List

open LabelledGraph OpenGraph

/-- The targets of a split, in the order of the stack. -/
def successors (states : List NfaState) (s : Nat) : List Nat :=
  match states[s]? with
  | some (.split a b) => b.toList ++ a.toList
  | _ => []

/-- An edge is a slot with a target. -/
def edge (states : List NfaState) : Edges Nat Char := fun p x q =>
  ∃ state, states[p]? = some state ∧ state.slot x (some q)

variable {states : List NfaState} {nfa : RegexNfa} {p q s : Nat} {stack closure seeds : List Nat} {fuel : Nat}

theorem mem_successors : q ∈ successors states p ↔ edge states p none q := by
  rw [successors, edge]
  split
  · rename_i a b found
    simp only [found, Option.some.injEq, exists_eq_left', NfaState.slot, true_and, mem_append, Option.mem_toList]
    rw [or_comm, eq_comm, @eq_comm _ b]
  · rename_i other
    constructor
    · intro wrong
      cases wrong
    · rintro ⟨state, found, slot⟩
      cases state with
      | literal => cases slot.1
      | any => cases slot.1.choose_spec
      | split a b => exact absurd found (other a b)
      | bracket =>
          obtain ⟨⟨ch, wrong, _⟩, _⟩ := slot
          cases wrong
      | accept => exact slot.elim

theorem closeLoop_cons : closeLoop states (fuel + 1) (s :: stack) closure =
    if s ∈ closure then closeLoop states fuel stack closure
    else closeLoop states fuel (successors states s ++ stack) (closure ++ [s]) := by
  rw [closeLoop, successors]
  cases states[s]? with
  | none => rfl
  | some state => cases state <;> rfl

/-- A property that the splits hand to their targets holds of the closure. -/
theorem closeLoop_good {good : Nat → Prop} (step : ∀ p q, good p → edge states p none q → good q)
    (start : ∀ s ∈ stack, good s) (old : ∀ s ∈ closure, good s) : ∀ s ∈ closeLoop states fuel stack closure, good s := by
  induction fuel generalizing stack closure with
  | zero => exact old
  | succ fuel ih =>
      cases stack with
      | nil => exact old
      | cons top stack =>
          obtain ⟨first, rest⟩ := forall_mem_cons.mp start
          rw [closeLoop_cons]
          split
          · exact ih rest old
          · apply ih
            · intro s member
              rcases mem_append.mp member with new | later
              · exact step top s first (mem_successors.mp new)
              · exact rest s later
            · intro s member
              rcases mem_append.mp member with known | new
              · exact old s known
              · rw [mem_singleton.mp new]
                exact first

theorem length_successors : (successors states s).length ≤ 2 := by
  rw [successors]
  split
  · rename_i a b _
    cases a <;> cases b <;> simp
  · exact Nat.zero_le _

theorem successors_outside (outside : states.length ≤ s) : successors states s = [] := by
  rw [successors, getElem?_eq_none outside]

/-- The closure holds the stack, and it holds the targets of its splits. The fuel covers the stack and two
targets of each state that is not visited. -/
theorem closeLoop_closed (enough : stack.length + 2 * (Finset.range states.length \ closure.toFinset).card ≤ fuel)
    (pending : ∀ p ∈ closure, ∀ q ∈ successors states p, q ∈ closure ∨ q ∈ stack) :
    (∀ s ∈ stack, s ∈ closeLoop states fuel stack closure) ∧ (∀ s ∈ closure, s ∈ closeLoop states fuel stack closure) ∧
      ∀ p ∈ closeLoop states fuel stack closure, ∀ q ∈ successors states p, q ∈ closeLoop states fuel stack closure := by
  induction fuel generalizing stack closure with
  | zero =>
      have drained : stack = [] := eq_nil_of_length_eq_zero (by omega)
      subst drained
      refine ⟨nofun, fun s => id, fun p member q next => ?_⟩
      exact (pending p member q next).resolve_right not_mem_nil
  | succ fuel ih =>
      cases stack with
      | nil =>
          refine ⟨nofun, fun s => id, fun p member q next => ?_⟩
          exact (pending p member q next).resolve_right not_mem_nil
      | cons top stack =>
          rw [length_cons] at enough
          rw [closeLoop_cons]
          split
          · rename_i known
            obtain ⟨stacked, kept, closed⟩ := @ih stack closure (by omega) fun p member q next => by
              rcases pending p member q next with old | queued
              · exact Or.inl old
              · rcases mem_cons.mp queued with rfl | later
                · exact Or.inl known
                · exact Or.inr later
            exact ⟨forall_mem_cons.mpr ⟨kept top known, stacked⟩, kept, closed⟩
          · rename_i fresh
            have room : (successors states top ++ stack).length +
                2 * (Finset.range states.length \ (closure ++ [top]).toFinset).card ≤ fuel := by
              rw [length_append]
              by_cases inside : top < states.length
              · have fewer : (Finset.range states.length \ (closure ++ [top]).toFinset).card <
                    (Finset.range states.length \ closure.toFinset).card := by
                  apply Finset.card_lt_card
                  refine Finset.ssubset_iff_subset_ne.mpr ⟨?_, fun same => ?_⟩
                  · apply Finset.sdiff_subset_sdiff le_rfl
                    intro s member
                    simp_all
                  · have here : top ∈ Finset.range states.length \ closure.toFinset := by
                      simp [inside, fresh]
                    rw [← same] at here
                    simp at here
                have two := @length_successors states top
                omega
              · rw [successors_outside (Nat.le_of_not_lt inside), length_nil]
                have fewer : (Finset.range states.length \ (closure ++ [top]).toFinset).card ≤
                    (Finset.range states.length \ closure.toFinset).card := by
                  apply Finset.card_le_card
                  apply Finset.sdiff_subset_sdiff le_rfl
                  intro s member
                  simp_all
                omega
            obtain ⟨stacked, kept, closed⟩ := ih room fun p member q next => by
              rcases mem_append.mp member with old | new
              · rcases pending p old q next with known | queued
                · exact Or.inl (mem_append_left _ known)
                · rcases mem_cons.mp queued with rfl | later
                  · exact Or.inl (mem_append_right _ (mem_singleton_self _))
                  · exact Or.inr (mem_append_right _ later)
              · rw [mem_singleton.mp new] at next
                exact Or.inr (mem_append_left _ next)
            refine ⟨forall_mem_cons.mpr ⟨?_, ?_⟩, ?_, closed⟩
            · exact kept top (mem_append_right _ (mem_singleton_self _))
            · exact fun s member => stacked s (mem_append_right _ member)
            · exact fun s member => kept s (mem_append_left _ member)

/-- The closure holds the states behind the silent paths. -/
theorem mem_epsilonClosure : q ∈ nfa.epsilonClosure seeds ↔ ∃ p ∈ seeds, Path (edge nfa.states) p [] q := by
  constructor
  · apply closeLoop_good
    · rintro p q ⟨seed, member, path⟩ step
      exact ⟨seed, member, path.trans (.single step)⟩
    · exact fun s member => ⟨s, mem_reverse.mp member, .refl s⟩
    · exact fun s wrong => absurd wrong not_mem_nil
  · rintro ⟨p, member, path⟩
    have enough : seeds.reverse.length + 2 * (Finset.range nfa.states.length \ ([] : List Nat).toFinset).card ≤
        seeds.length + 2 * nfa.states.length := by
      simp
    obtain ⟨stacked, _, closed⟩ := closeLoop_closed enough nofun
    have start : p ∈ nfa.epsilonClosure seeds := stacked p (mem_reverse.mpr member)
    exact @Path.inside_silent _ _ _ _ _ {s | s ∈ nfa.epsilonClosure seeds}
      (fun p q known step => closed p known q (mem_successors.mpr step)) path start

theorem target_iff {state : NfaState} {ch : Char} : state.target ch = some q ↔ state.slot (some ch) (some q) := by
  cases state with
  | literal c next =>
      rw [NfaState.target, NfaState.slot]
      by_cases same : c = ch
      · subst same
        rw [if_pos rfl, and_iff_right rfl]
        exact eq_comm
      · rw [if_neg same]
        exact iff_of_false (by rintro ⟨⟩) fun slot => same (Option.some.inj slot.1).symm
  | any next =>
      rw [NfaState.target, NfaState.slot, and_iff_right ⟨ch, rfl⟩]
      exact eq_comm
  | split a b => simp [NfaState.target, NfaState.slot]
  | bracket chars ranges negated next =>
      rw [NfaState.target, NfaState.slot]
      split
      · rename_i inside
        rw [and_iff_right ⟨ch, rfl, inside⟩]
        exact eq_comm
      · rename_i outside
        simp [outside]
  | accept => simp [NfaState.target, NfaState.slot]

/-- The simulation follows the paths of the text. -/
theorem mem_steps (text : List Char) : q ∈ text.foldl nfa.step (nfa.epsilonClosure seeds) ↔
    ∃ p ∈ seeds, Path (edge nfa.states) p text q := by
  induction text generalizing seeds with
  | nil => exact mem_epsilonClosure
  | cons ch text ih =>
      rw [foldl_cons, step, ih]
      constructor
      · rintro ⟨p', member, path⟩
        obtain ⟨s, reached, found⟩ := mem_filterMap.mp member
        obtain ⟨state, here, target⟩ := Option.bind_eq_some_iff.mp found
        obtain ⟨p, seed, silent⟩ := mem_epsilonClosure.mp reached
        exact ⟨p, seed, path_cons_iff.mpr ⟨s, p', silent, ⟨state, here, target_iff.mp target⟩, path⟩⟩
      · rintro ⟨p, seed, path⟩
        obtain ⟨s, p', silent, ⟨state, here, slot⟩, path⟩ := path_cons_iff.mp path
        refine ⟨p', mem_filterMap.mpr ⟨s, mem_epsilonClosure.mpr ⟨p, seed, silent⟩, ?_⟩, path⟩
        exact Option.bind_eq_some_iff.mpr ⟨state, here, target_iff.mpr slot⟩

theorem isFullMatch_iff : nfa.isFullMatch text = true ↔ Path (edge nfa.states) nfa.start text nfa.acceptState := by
  rw [isFullMatch, isAccepting, contains_iff_mem, mem_steps]
  simp

/-- The accepting state is the only exit of the whole automaton. -/
def finalSlots (states : List NfaState) (accept : Nat) : Slots Nat Char := fun p x next =>
  live states [] p x next ∨ (p = accept ∧ x = none ∧ next = none)

variable {accept : Nat} {text : List Char} {x : Option Char}

theorem finalSlots_some : finalSlots states accept p x (some q) ↔ edge states p x q := by
  simp [finalSlots, live, edge]

theorem finalSlots_none : finalSlots states accept p x none ↔ p = accept ∧ x = none := by
  simp [finalSlots, live]

/-- The paths to the accepting state are the words of the whole automaton. -/
theorem path_iff_exits : Path (edge states) p text accept ↔ text ∈ exits (finalSlots states accept) p := by
  constructor
  · intro path
    generalize last : accept = final at path
    induction path with
    | refl =>
        subst last
        exact Escapes.out (finalSlots_none.mpr ⟨rfl, rfl⟩)
    | silent step _ ih => exact Escapes.step (finalSlots_some.mpr step) (ih last)
    | letter step _ ih => exact Escapes.step (finalSlots_some.mpr step) (ih last)
  · intro escapes
    induction escapes with
    | out slot =>
        obtain ⟨rfl, rfl⟩ := finalSlots_none.mp slot
        exact .refl _
    | step slot _ ih => exact ih.extend _ (finalSlots_some.mp slot)

/-- A fragment that is patched to the accepting state matches its language. -/
theorem Holds.matches {region : Set Nat} {frag : Fragment} {language : Language Char}
    (holds : Holds states region frag language) :
    RegexNfa.isFullMatch ⟨patch (states ++ [.accept]) frag.outs states.length, frag.start, states.length⟩ text = true ↔
      text ∈ language := by
  rw [isFullMatch_iff, path_iff_exits]
  have found (p : Nat) : (patch (states ++ [.accept]) frag.outs states.length)[p]? = if p ∈ frag.outs
      then (states ++ [.accept])[p]?.map (NfaState.patch states.length) else (states ++ [.accept])[p]? :=
    modifyAll_getElem? _ holds.distinct p
  have plugged : Plugged (live states frag.outs)
      (live (patch (states ++ [.accept]) frag.outs states.length) []) region states.length := by
    apply holds.plugged
    · intro p inside listed state known opened
      refine ⟨_, ?_, Led.patch states.length opened⟩
      rw [found, if_pos listed, holds.appended _ p inside, known]
      rfl
    · intro p inside unlisted
      rw [found, if_neg unlisted, holds.appended _ p inside]
    · exact fun p _ => not_mem_nil
  have final : Plugged (live states frag.outs)
      (finalSlots (patch (states ++ [.accept]) frag.outs states.length) states.length) region states.length := by
    refine ⟨plugged.closed, ?_, ?_⟩
    · intro p x q inside
      rw [← plugged.leads p x q inside, finalSlots]
      simp
    · intro p x inside slot
      obtain ⟨rfl, _⟩ := finalSlots_none.mp slot
      exact holds.apart inside
  have exit : exits (finalSlots (patch (states ++ [.accept]) frag.outs states.length) states.length) states.length = 1 := by
    apply Language.ext
    intro word
    rw [Language.mem_one, exits_dangling]
    · constructor
      · rintro ⟨x, slot, rfl⟩
        rw [(finalSlots_none.mp slot).2]
        rfl
      · rintro rfl
        exact ⟨none, finalSlots_none.mpr ⟨rfl, rfl⟩, rfl⟩
    · intro x q slot
      obtain ⟨state, known, slot⟩ := finalSlots_some.mp slot
      rw [found, if_neg holds.outside, getElem?_last] at known
      cases known
      exact slot
  rw [final.exits_eq holds.start, exit, mul_one, holds.words]

end Pictor.RegexNfa
