import Pictor.Proof.Grammar.RegexNfa

namespace Pictor
open List

open LabelledGraph Outcome

theorem ByteSet.mem_bytes (set : ByteSet) (b : UInt8) : b ∈ set.bytes ↔ set.contains b = true := by
  rw [bytes, mem_filter]
  constructor
  · exact And.right
  · intro has
    refine ⟨mem_map.mpr ⟨b.toNat, mem_range.mpr b.toNat_lt, ?_⟩, has⟩
    exact UInt8.ofNat_toNat

namespace Nfa

/-- Every edge of the table leads into the table. -/
def Closed (nfa : Nfa) : Prop := ∀ p x q, nfa.edge p x q → q < nfa.states.length

variable {nfa : Nfa} {p q : Nat} {seeds : Finset Nat}

/-- The closure holds the states behind the silent paths. -/
theorem mem_epsilonClosure (closed : nfa.Closed) (inside : ∀ p ∈ seeds, p < nfa.states.length) :
    q ∈ nfa.epsilonClosure seeds ↔ ∃ p ∈ seeds, Path nfa.edge p [] q := by
  let next : Nat → Finset Nat → Nat → List Nat := fun _ _ state => (nfa.stateAt state).epsilon
  have queued : ∀ p ∈ HashOrder.rising seeds, p ∈ seeds := fun p => (HashOrder.mem_rising seeds p).mp
  constructor
  · apply Worklist.close_induction next (fun q => ∃ p ∈ seeds, Path nfa.edge p [] q) _ _ _ _ _ queued
    · exact fun p member => ⟨p, member, .refl p⟩
    · intro moment seen a good popped c candidate
      obtain ⟨p, member, path⟩ := good a popped
      have step : nfa.edge a none c := candidate
      exact ⟨p, member, path.trans (.single step)⟩
  · rintro ⟨p, member, path⟩
    have within : seeds ⊆ Finset.range nfa.states.length := fun p member =>
      Finset.mem_range.mpr (inside p member)
    have processed := Worklist.close_processed next (Finset.range nfa.states.length)
      (fun _ _ a _ _ c candidate => Finset.mem_range.mpr (closed a none c candidate))
      nfa.states.length 0 seeds (HashOrder.rising seeds) queued within (by
        rw [HashOrder.length_rising, Finset.card_range, Nat.add_comm])
    have start := Worklist.subset_close next nfa.states.length 0 seeds (HashOrder.rising seeds) member
    have stay : ∀ p q, p ∈ nfa.epsilonClosure seeds → nfa.edge p none q →
        q ∈ nfa.epsilonClosure seeds := by
      intro p q known step
      have pending : p ∈ HashOrder.rising seeds ∨ p ∉ seeds := by
        rw [HashOrder.mem_rising]
        exact Classical.em _
      obtain ⟨_, _, _, _, all⟩ := processed p known pending
      exact all q step
    exact path.inside_silent stay start

/-- No seed has no closure. -/
theorem epsilonClosure_empty (closed : nfa.Closed) : nfa.epsilonClosure ∅ = ∅ := by
  apply Finset.eq_empty_of_forall_notMem
  intro q member
  obtain ⟨p, wrong, _⟩ := (mem_epsilonClosure closed (by simp)).mp member
  exact absurd wrong (Finset.notMem_empty p)

end Nfa

namespace DfaBuilder

variable {nfa : Nfa} {set : Finset Nat} {b : UInt8} {p q i j accept : Nat}

theorem mem_letteredEdges : (b, q) ∈ letteredEdges nfa set ↔ ∃ p ∈ set, nfa.edge p (some b) q := by
  simp only [letteredEdges, mem_flatMap, HashOrder.mem_rising, mem_map, Prod.mk.injEq,
    Nfa.edge, ByteSet.mem_bytes]
  constructor
  · rintro ⟨p, inside, ⟨label, target⟩, transition, byte, has, rfl, rfl⟩
    exact ⟨p, inside, label, transition, has⟩
  · rintro ⟨p, inside, label, transition, has⟩
    exact ⟨p, inside, (label, q), transition, b, has, rfl, rfl⟩

/-- The states that one byte reaches from a state set, before the closure. -/
def targetsOf (nfa : Nfa) (set : Finset Nat) (b : UInt8) : Finset Nat :=
  ((byteTargets nfa set).lookup b).getD ∅

theorem mem_foldl_addTarget (edges : List (UInt8 × Nat)) (targets : AList fun _ : UInt8 => Finset Nat) :
    q ∈ ((edges.foldl addTarget targets).lookup b).getD ∅ ↔ q ∈ (targets.lookup b).getD ∅ ∨ (b, q) ∈ edges := by
  induction edges generalizing targets with
  | nil => simp
  | cons edge edges ih =>
      obtain ⟨byte, target⟩ := edge
      rw [foldl_cons, ih, mem_cons, Prod.mk.injEq, addTarget]
      by_cases same : b = byte
      · subst same
        rw [AList.lookup_insert, Option.getD_some, Finset.mem_insert]
        tauto
      · rw [AList.lookup_insert_ne same]
        tauto

theorem mem_targetsOf : q ∈ targetsOf nfa set b ↔ ∃ p ∈ set, nfa.edge p (some b) q := by
  rw [targetsOf, byteTargets, mem_foldl_addTarget, mem_letteredEdges]
  simp

/-- The state set behind one byte. -/
def move (nfa : Nfa) (set : Finset Nat) (b : UInt8) : Finset Nat :=
  nfa.epsilonClosure (targetsOf nfa set b)

/-- A byte outside the iteration leads nowhere. -/
theorem move_empty (closed : nfa.Closed) (absent : b ∉ (byteTargets nfa set).keys.toFinset) : move nfa set b = ∅ := by
  rw [mem_toFinset, ← AList.mem_keys, ← AList.lookup_isSome, Option.not_isSome_iff_eq_none] at absent
  rw [move, targetsOf, absent]
  exact Nfa.epsilonClosure_empty closed

theorem targetsOf_inside (closed : nfa.Closed) : ∀ q ∈ targetsOf nfa set b, q < nfa.states.length := by
  intro q member
  obtain ⟨p, _, step⟩ := mem_targetsOf.mp member
  exact closed p (some b) q step

/-- The builder holds the state sets of a list, with the transitions of the pairs that are handled. -/
structure Table (nfa : Nfa) (accept : Nat) (builder : DfaBuilder) (sets : List (Finset Nat))
    (handled : Nat → UInt8 → Prop) : Prop where
  length : builder.dfaStates.length = sets.length
  lookup : ∀ (set : Finset Nat) (i : Nat), builder.setToDfa.lookup set = some i ↔ sets[i]? = some set
  closures : ∀ set ∈ sets, ∃ seeds, (∀ p ∈ seeds, p < nfa.states.length) ∧ set = nfa.epsilonClosure seeds
  accepts : ∀ (i : Nat) (set : Finset Nat) (state : DfaState), sets[i]? = some set →
    builder.dfaStates[i]? = some state → state.isAccept = decide (accept ∈ set)
  known : ∀ (i : Nat) (b : UInt8), handled i b → i < sets.length
  transitions : ∀ (i : Nat) (set : Finset Nat) (state : DfaState) (b : UInt8), sets[i]? = some set →
    builder.dfaStates[i]? = some state →
    (handled i b ∧ move nfa set b ≠ ∅ ∧
      ∃ j, state.transitions.lookup b = some j ∧ sets[j]? = some (move nfa set b)) ∨
    ((handled i b → move nfa set b = ∅) ∧ state.transitions.lookup b = none)

variable {builder builder' : DfaBuilder} {sets : List (Finset Nat)} {handled : Nat → UInt8 → Prop}

/-- A member of a list with one more element is a member before, or it is the last one. -/
theorem getElem?_snoc {α : Type} (items : List α) (last a : α) :
    (items ++ [last])[i]? = some a ↔ items[i]? = some a ∨ (i = items.length ∧ last = a) := by
  rw [getElem?_append]
  split
  · rename_i inside
    constructor
    · exact Or.inl
    · rintro (old | ⟨wrong, _⟩)
      · exact old
      · omega
  · rename_i outside
    rw [getElem?_eq_none (Nat.le_of_not_lt outside), getElem?_singleton]
    split
    · have here : i = items.length := by omega
      simp [here]
    · have there : i ≠ items.length := by omega
      simp [there]

variable (table : Table nfa accept builder sets handled)
include table

/-- A new state set has no transition yet. -/
theorem Table.addState {seeds : Finset Nat} (inside : ∀ p ∈ seeds, p < nfa.states.length)
    (fresh : builder.setToDfa.lookup (nfa.epsilonClosure seeds) = none) :
    Table nfa accept (builder.addState (nfa.epsilonClosure seeds) (accept ∈ nfa.epsilonClosure seeds))
      (sets ++ [nfa.epsilonClosure seeds]) handled := by
  have size := table.length
  -- The state and the set at one index are both old or both new.
  have split {i : Nat} {set : Finset Nat} {state : DfaState}
      (here : (sets ++ [nfa.epsilonClosure seeds])[i]? = some set)
      (found : (builder.dfaStates ++ [⟨∅, accept ∈ nfa.epsilonClosure seeds⟩])[i]? = some state) :
      (sets[i]? = some set ∧ builder.dfaStates[i]? = some state) ∨
        (i = sets.length ∧ nfa.epsilonClosure seeds = set ∧
          (⟨∅, accept ∈ nfa.epsilonClosure seeds⟩ : DfaState) = state) := by
    rcases (getElem?_snoc _ _ _).mp here with old | ⟨last, same⟩
    · have bound := (List.getElem?_eq_some_iff.mp old).1
      rcases (getElem?_snoc _ _ _).mp found with old' | ⟨last, _⟩
      · exact Or.inl ⟨old, old'⟩
      · omega
    · rcases (getElem?_snoc _ _ _).mp found with old' | ⟨_, same'⟩
      · have bound := (List.getElem?_eq_some_iff.mp old').1
        omega
      · exact Or.inr ⟨last, same, same'⟩
  constructor
  case length => simp [DfaBuilder.addState, size]
  case lookup =>
    intro set i
    rw [getElem?_snoc, DfaBuilder.addState]
    by_cases same : set = nfa.epsilonClosure seeds
    · subst same
      rw [AList.lookup_insert, ← table.lookup, fresh, size]
      simp [eq_comm]
    · rw [AList.lookup_insert_ne same, table.lookup]
      simp [Ne.symm same]
  case closures =>
    intro set member
    rcases mem_append.mp member with old | new
    · exact table.closures set old
    · exact ⟨seeds, inside, mem_singleton.mp new⟩
  case accepts =>
    intro i set state here found
    rcases split here found with ⟨old, old'⟩ | ⟨_, rfl, rfl⟩
    · exact table.accepts i set state old old'
    · rfl
  case known =>
    intro i b done
    rw [length_append]
    exact Nat.lt_add_right _ (table.known i b done)
  case transitions =>
    intro i set state b here found
    rcases split here found with ⟨old, old'⟩ | ⟨last, rfl, rfl⟩
    · rcases table.transitions i set state b old old' with ⟨done, some, j, link, target⟩ | nowhere
      · exact Or.inl ⟨done, some, j, link, (getElem?_snoc _ _ _).mpr (Or.inl target)⟩
      · exact Or.inr nowhere
    · refine Or.inr ⟨fun done => ?_, AList.lookup_empty b⟩
      have bound := table.known i b done
      omega

/-- Pairs whose bytes lead nowhere are handled too. -/
theorem Table.widen {handled' : Nat → UInt8 → Prop} (wider : ∀ k b, handled k b → handled' k b)
    (only : ∀ k b, handled' k b → ∃ set, sets[k]? = some set ∧ (handled k b ∨ move nfa set b = ∅)) :
    Table nfa accept builder sets handled' where
  length := table.length
  lookup := table.lookup
  closures := table.closures
  accepts := table.accepts
  known k b done := by
    obtain ⟨set, here, _⟩ := only k b done
    exact (List.getElem?_eq_some_iff.mp here).1
  transitions k set state b here found := by
    rcases table.transitions k set state b here found with ⟨done, some⟩ | ⟨none, link⟩
    · exact Or.inl ⟨wider k b done, some⟩
    · refine Or.inr ⟨fun done => ?_, link⟩
      obtain ⟨set', here', old | nowhere⟩ := only k b done
      · exact none old
      · rw [here] at here'
        cases here'
        exact nowhere

/-- A handled pair has an entry. -/
theorem Table.entry {k : Nat} (done : handled k b) :
    ∃ set, sets[k]? = some set ∧ (handled k b ∨ move nfa set b = ∅) := by
  have inside := table.known k b done
  exact ⟨sets.get ⟨k, inside⟩, getElem?_eq_getElem inside, Or.inl done⟩

theorem Table.skip (here : sets[i]? = some set) (nowhere : move nfa set b = ∅) :
    Table nfa accept builder sets fun k byte => handled k byte ∨ (k = i ∧ byte = b) := by
  apply table.widen
  · exact fun k byte => Or.inl
  · rintro k byte (old | ⟨rfl, rfl⟩)
    · exact table.entry old
    · exact ⟨set, here, Or.inr nowhere⟩

/-- A pair is handled when its transition leads to the state set behind its byte. -/
theorem Table.connect (here : sets[i]? = some set) (somewhere : move nfa set b ≠ ∅)
    (target : sets[j]? = some (move nfa set b)) : Table nfa accept (builder.connect i b j) sets fun k byte =>
      handled k byte ∨ (k = i ∧ byte = b) := by
  have states {k : Nat} {state : DfaState} (found : (builder.connect i b j).dfaStates[k]? = some state) :
      ∃ old, builder.dfaStates[k]? = some old ∧ state.isAccept = old.isAccept ∧
        ((k = i ∧ state.transitions = old.transitions.insert b j) ∨
          (k ≠ i ∧ state.transitions = old.transitions)) := by
    rw [DfaBuilder.connect, getElem?_modify] at found
    cases known : builder.dfaStates[k]? with
    | none =>
        rw [known] at found
        cases found
    | some old =>
        simp only [known, Option.map_eq_map, Option.map_some, Option.some.injEq] at found
        by_cases same : i = k
        · rw [if_pos same] at found
          cases found
          exact ⟨_, rfl, rfl, Or.inl ⟨same.symm, rfl⟩⟩
        · rw [if_neg same] at found
          cases found
          exact ⟨_, rfl, rfl, Or.inr ⟨Ne.symm same, rfl⟩⟩
  constructor
  case length =>
    rw [DfaBuilder.connect, length_modify]
    exact table.length
  case lookup => exact table.lookup
  case closures => exact table.closures
  case accepts =>
    intro k set' state here' found
    obtain ⟨old, known, same, _⟩ := states found
    rw [same]
    exact table.accepts k set' old here' known
  case known =>
    rintro k byte (old | ⟨rfl, _⟩)
    · exact table.known k byte old
    · exact (List.getElem?_eq_some_iff.mp here).1
  case transitions =>
    intro k set' state byte here' found
    obtain ⟨old, known, _, ⟨rfl, link⟩ | ⟨other, link⟩⟩ := states found
    · rw [here] at here'
      cases here'
      rw [link]
      by_cases same : byte = b
      · subst same
        rw [AList.lookup_insert]
        exact Or.inl ⟨Or.inr ⟨rfl, rfl⟩, somewhere, j, rfl, target⟩
      · rw [AList.lookup_insert_ne same]
        simp only [same, and_false, or_false]
        exact table.transitions k set old byte here known
    · rw [link]
      simp only [other, false_and, or_false]
      exact table.transitions k set' old byte here' known

omit table

variable {order : HashOrder UInt8}

/-- The loop over the bytes handles each of them. The new state sets wait in the order of their
indices. -/
theorem Table.addTransitions (here : sets[i]? = some set) (bytes : List UInt8)
    (closed : nfa.Closed) (table : Table nfa accept builder sets handled) (bounded : sets.length ≤ maxDfaStates)
    (run : addTransitions nfa accept i (byteTargets nfa set) bytes builder = .ok builder') :
    ∃ more, Table nfa accept builder' (sets ++ more) (fun k byte => handled k byte ∨ (k = i ∧ byte ∈ bytes)) ∧
      builder'.worklist = builder.worklist ++ more.zipIdx sets.length ∧ (sets ++ more).length ≤ maxDfaStates := by
  induction bytes generalizing builder sets handled with
  | nil =>
      cases run
      refine ⟨[], ?_, ?_, ?_⟩
      · simpa only [append_nil, not_mem_nil, and_false, or_false] using table
      · rw [zipIdx_nil, append_nil]
      · rw [append_nil]
        exact bounded
  | cons byte bytes ih =>
      have joined : (fun k b => (handled k b ∨ (k = i ∧ b = byte)) ∨ (k = i ∧ b ∈ bytes)) =
          fun k b => handled k b ∨ (k = i ∧ b ∈ byte :: bytes) := by
        funext k b
        rw [mem_cons, or_assoc, ← and_or_left]
      rw [DfaBuilder.addTransitions] at run
      change (if move nfa set byte = ∅ then _ else _) = _ at run
      split at run
      · rename_i nowhere
        obtain ⟨more, table', waiting, bounded'⟩ := ih here (table.skip here nowhere) bounded run
        rw [joined] at table'
        exact ⟨more, table', waiting, bounded'⟩
      · rename_i somewhere
        split at run
        · rename_i existing found
          have target := (table.lookup _ _).mp found
          obtain ⟨more, table', waiting, bounded'⟩ :=
            ih here (table.connect here somewhere target) bounded run
          rw [joined] at table'
          exact ⟨more, table', waiting, bounded'⟩
        · rename_i fresh
          split at run
          · cases run
          · rename_i room
            have added := table.addState (targetsOf_inside closed) fresh
            have here' : (sets ++ [move nfa set byte])[i]? = some set :=
              (getElem?_snoc _ _ _).mpr (Or.inl here)
            have target : (sets ++ [move nfa set byte])[builder.dfaStates.length]? =
                some (move nfa set byte) :=
              (getElem?_snoc _ _ _).mpr (Or.inr ⟨table.length, rfl⟩)
            have size := table.length
            obtain ⟨more, table', waiting, bounded'⟩ :=
              ih here' (added.connect here' somewhere target) (by
                rw [length_append, length_singleton]
                omega) run
            rw [joined, append_assoc] at table'
            refine ⟨move nfa set byte :: more, table', ?_, by rwa [append_assoc] at bounded'⟩
            rw [waiting, zipIdx_cons, length_append, length_singleton]
            simp only [DfaBuilder.connect, DfaBuilder.addState, append_assoc, size]
            rfl

/-- The states of the automaton have all transitions of their state sets. -/
structure Complete (nfa : Nfa) (accept : Nat) (states : List DfaState) (sets : List (Finset Nat)) :
    Prop where
  length : states.length = sets.length
  closures : ∀ set ∈ sets, ∃ seeds, (∀ p ∈ seeds, p < nfa.states.length) ∧ set = nfa.epsilonClosure seeds
  accepts : ∀ (i : Nat) (set : Finset Nat) (state : DfaState), sets[i]? = some set →
    states[i]? = some state → state.isAccept = decide (accept ∈ set)
  transitions : ∀ (i : Nat) (set : Finset Nat) (state : DfaState) (b : UInt8), sets[i]? = some set →
    states[i]? = some state →
    (move nfa set b ≠ ∅ ∧
      ∃ j, state.transitions.lookup b = some j ∧ sets[j]? = some (move nfa set b)) ∨
    (move nfa set b = ∅ ∧ state.transitions.lookup b = none)

theorem Table.complete (table : Table nfa accept builder sets handled)
    (all : ∀ k b, k < sets.length → handled k b) : Complete nfa accept builder.dfaStates sets where
  length := table.length
  closures := table.closures
  accepts := table.accepts
  transitions k set state b here found := by
    rcases table.transitions k set state b here found with ⟨_, some⟩ | ⟨none, link⟩
    · exact Or.inl some
    · exact Or.inr ⟨none (all k b (List.getElem?_eq_some_iff.mp here).1), link⟩

/-- The loop visits every state set. The fuel covers the state sets that are not visited. -/
theorem Table.explore (closed : nfa.Closed) (fuel moment visited : Nat)
    (table : Table nfa accept builder sets fun k _ => k < visited)
    (waiting : builder.worklist = sets.zipIdx.drop visited) (bounded : sets.length ≤ maxDfaStates)
    (enough : maxDfaStates ≤ fuel + visited) (run : explore order nfa accept fuel moment builder = .ok builder') :
    ∃ more, Complete nfa accept builder'.dfaStates (sets ++ more) := by
  induction fuel generalizing builder sets moment visited with
  | zero =>
      cases run
      refine ⟨[], ?_⟩
      rw [append_nil]
      exact table.complete fun k b inside => by omega
  | succ fuel ih =>
      rw [DfaBuilder.explore] at run
      split at run
      · rename_i none
        cases run
        refine ⟨[], ?_⟩
        rw [none] at waiting
        have drained := drop_eq_nil_iff.mp waiting.symm
        rw [length_zipIdx] at drained
        rw [append_nil]
        exact table.complete fun k b inside => by omega
      · rename_i set dfaId worklist front
        rw [front] at waiting
        -- The front of the queue is the next state set.
        have next : sets.zipIdx[visited]? = some (set, dfaId) := by
          rw [← head?_drop, ← waiting, head?_cons]
        have rest : worklist = sets.zipIdx.drop (visited + 1) := by
          rw [← tail_drop, ← waiting, tail_cons]
        rw [getElem?_zipIdx, Option.map_eq_some_iff] at next
        obtain ⟨_, here, pair⟩ := next
        cases pair
        rw [Nat.zero_add] at run
        obtain ⟨middle, stage, run⟩ := bind_ok run
        have table' : Table nfa accept { builder with worklist := worklist } sets
            fun k _ => k < visited :=
          ⟨table.length, table.lookup, table.closures, table.accepts, table.known, table.transitions⟩
        obtain ⟨more, grown, queue, bounded'⟩ :=
          Table.addTransitions here _ closed table' bounded stage
        have inside := (List.getElem?_eq_some_iff.mp here).1
        have here' : (sets ++ more)[visited]? = some set :=
          (getElem?_append_left inside).trans here
        have visitedAll : Table nfa accept middle (sets ++ more) fun k _ => k < visited + 1 := by
          apply grown.widen
          · rintro k b (old | ⟨rfl, _⟩)
            · omega
            · omega
          · intro k b done
            by_cases last : k = visited
            · subst last
              by_cases member : b ∈ order.iterate moment (byteTargets nfa set).keys.toFinset
              · exact ⟨set, here', Or.inl (Or.inr ⟨rfl, member⟩)⟩
              · rw [HashOrder.mem] at member
                exact ⟨set, here', Or.inr (move_empty closed member)⟩
            · exact grown.entry (Or.inl (by omega))
        obtain ⟨others, complete⟩ := ih (moment + 1) (visited + 1) visitedAll (by
          rw [queue, rest, zipIdx_append, drop_append_of_le_length, Nat.zero_add]
          rw [length_zipIdx]
          omega) bounded' (by omega) run
        rw [append_assoc] at complete
        exact ⟨more ++ others, complete⟩

/-- The first state set is the closure of the start state. -/
theorem buildDfa_complete {start : Nat} {states : List DfaState} (closed : nfa.Closed)
    (inside : start < nfa.states.length) (run : buildDfa order nfa accept start = .ok states) :
    ∃ more, Complete nfa accept states (nfa.epsilonClosure {start} :: more) := by
  have empty : Table nfa accept ⟨[], ∅, []⟩ [] fun _ _ => False := by
    constructor <;> simp
  have one := empty.addState (fun p member => Finset.mem_singleton.mp member ▸ inside) rfl
  have table : Table nfa accept (DfaBuilder.start nfa accept start) [nfa.epsilonClosure {start}]
      fun k _ => k < 0 := by
    apply one.widen
    · exact fun k b => False.elim
    · exact fun k b wrong => absurd wrong (Nat.not_lt_zero k)
  rw [buildDfa] at run
  obtain ⟨builder, stage, run⟩ := bind_ok run
  cases run
  have one_le : 1 ≤ maxDfaStates := by decide
  exact table.explore closed maxDfaStates 0 0 rfl one_le le_rfl stage

end DfaBuilder

end Pictor
