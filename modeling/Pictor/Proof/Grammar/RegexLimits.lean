import Pictor.Proof.Grammar.RegexDfa

namespace Pictor

open Outcome

namespace RegexNode

/-- The number of states of some copies. No copy is one state. -/
def copiesSize (size : Nat) : Nat → Nat
  | 0 => 1
  | count + 1 => (count + 1) * size

mutual

/-- The number of states of a syntax tree. -/
def nfaSize : RegexNode → Nat
  | .empty => 1
  | .byteClass _ => 2
  | .concat nodes =>
      match nodes with
      | [] => 1
      | node :: nodes => nfaSize node + concatSize nodes
  | .alternation nodes =>
      match nodes with
      | [] => 1
      | node :: nodes => nfaSize node + alternationSize nodes
  | .star inner => nfaSize inner + 2
  | .plus inner => nfaSize inner + 2
  | .optional inner => nfaSize inner + 2
  | .countedExact inner n => copiesSize (nfaSize inner) n
  | .countedRange inner n (some m) =>
      copiesSize (nfaSize inner) n + if m = n then 0 else copiesSize (nfaSize inner + 2) (m - n)
  | .countedRange inner n none => copiesSize (nfaSize inner) n + (nfaSize inner + 2)

def concatSize : List RegexNode → Nat
  | [] => 0
  | node :: nodes => nfaSize node + concatSize nodes

def alternationSize : List RegexNode → Nat
  | [] => 0
  | node :: nodes => nfaSize node + (2 + alternationSize nodes)

end

end RegexNode

namespace Nfa

variable {Result Next : Type} {build : NfaBuild Result} {size size' : Nat}

/-- A build takes a fixed number of states, and it fails exactly when they do not fit. -/
def Allocates (build : NfaBuild Result) (size : Nat) : Prop :=
  ∀ nfa : Nfa, nfa.states.length ≤ maxNfaStates →
    (nfa.states.length + size ≤ maxNfaStates →
      ∃ result nfa', build nfa = .ok (result, nfa') ∧ nfa'.states.length = nfa.states.length + size) ∧
    (maxNfaStates < nfa.states.length + size → ∃ error, build nfa = .error error)

theorem Allocates.pure (result : Result) : Allocates (Pure.pure result) 0 := by
  intro nfa bounded
  exact ⟨fun _ => ⟨result, nfa, rfl, rfl⟩, fun wrong => absurd wrong (by omega)⟩

theorem Allocates.bind {next : Result → NfaBuild Next} (first : Allocates build size)
    (second : ∀ result, Allocates (next result) size') : Allocates (build >>= next) (size + size') := by
  intro nfa bounded
  obtain ⟨fits, overflows⟩ := first nfa bounded
  have split : (build >>= next) nfa = (build nfa >>= fun pair => next pair.1 pair.2) := rfl
  rw [split]
  constructor
  · intro room
    obtain ⟨result, nfa', run, length⟩ := fits (by omega)
    obtain ⟨result', nfa'', run', length'⟩ := (second result nfa' (by omega)).1 (by omega)
    refine ⟨result', nfa'', ?_, by omega⟩
    rw [run]
    exact run'
  · intro full
    by_cases room : nfa.states.length + size ≤ maxNfaStates
    · obtain ⟨result, nfa', run, length⟩ := fits room
      obtain ⟨error, run'⟩ := (second result nfa' (by omega)).2 (by omega)
      refine ⟨error, ?_⟩
      rw [run]
      exact run'
    · obtain ⟨error, run⟩ := overflows (by omega)
      refine ⟨error, ?_⟩
      rw [run]
      rfl

theorem Allocates.alloc : Allocates alloc 1 := by
  intro nfa bounded
  rw [Nfa.alloc]
  constructor
  · intro room
    refine ⟨_, _, if_neg (by omega), ?_⟩
    rw [List.length_append, List.length_singleton]
  · intro full
    exact ⟨_, if_pos (by omega)⟩

theorem Allocates.addEpsilon (source target : Nat) : Allocates (addEpsilon source target) 0 := by
  intro nfa bounded
  refine ⟨fun _ => ⟨(), nfa.withEpsilon source target, rfl, ?_⟩, fun wrong => absurd wrong (by omega)⟩
  rw [withEpsilon, length_modifyState, Nat.add_zero]

theorem Allocates.addTransition (source : Nat) (label : ByteSet) (target : Nat) :
    Allocates (addTransition source label target) 0 := by
  intro nfa bounded
  refine ⟨fun _ => ⟨(), nfa.withTransition source label target, rfl, ?_⟩, fun wrong => absurd wrong (by omega)⟩
  rw [withTransition, length_modifyState, Nat.add_zero]

theorem Allocates.empty : Allocates buildEmpty 1 :=
  Allocates.alloc.bind fun _ => .pure _

theorem Allocates.byteSet (label : ByteSet) : Allocates (buildByteSet label) 2 :=
  Allocates.alloc.bind fun _ => Allocates.alloc.bind fun _ => (Allocates.addTransition _ _ _).bind fun _ => .pure _

theorem Allocates.concat (a b : NfaFrag) : Allocates (buildConcat a b) 0 :=
  (Allocates.addEpsilon _ _).bind fun _ => .pure _

theorem Allocates.alternation (a b : NfaFrag) : Allocates (buildAlternation a b) 2 :=
  Allocates.alloc.bind fun _ => Allocates.alloc.bind fun _ => (Allocates.addEpsilon _ _).bind fun _ =>
    (Allocates.addEpsilon _ _).bind fun _ => (Allocates.addEpsilon _ _).bind fun _ =>
      (Allocates.addEpsilon _ _).bind fun _ => .pure _

theorem Allocates.star (a : NfaFrag) : Allocates (buildStar a) 2 :=
  Allocates.alloc.bind fun _ => Allocates.alloc.bind fun _ => (Allocates.addEpsilon _ _).bind fun _ =>
    (Allocates.addEpsilon _ _).bind fun _ => (Allocates.addEpsilon _ _).bind fun _ =>
      (Allocates.addEpsilon _ _).bind fun _ => .pure _

theorem Allocates.plus (a : NfaFrag) : Allocates (buildPlus a) 2 :=
  Allocates.alloc.bind fun _ => Allocates.alloc.bind fun _ => (Allocates.addEpsilon _ _).bind fun _ =>
    (Allocates.addEpsilon _ _).bind fun _ => (Allocates.addEpsilon _ _).bind fun _ => .pure _

theorem Allocates.optional (a : NfaFrag) : Allocates (buildOptional a) 2 :=
  Allocates.alloc.bind fun _ => Allocates.alloc.bind fun _ => (Allocates.addEpsilon _ _).bind fun _ =>
    (Allocates.addEpsilon _ _).bind fun _ => (Allocates.addEpsilon _ _).bind fun _ => .pure _

theorem Allocates.more {build : NfaBuild NfaFrag} (one : Allocates build size) (count : Nat) (frag : NfaFrag) :
    Allocates (buildMore build count frag) (count * size) := by
  induction count generalizing frag with
  | zero =>
      rw [buildMore, Nat.zero_mul]
      exact .pure frag
  | succ count ih =>
      rw [buildMore, Nat.succ_mul, Nat.add_comm]
      refine one.bind fun next => ?_
      have rest := (Allocates.concat frag next).bind fun joined => ih joined
      rwa [Nat.zero_add] at rest

theorem Allocates.copies {build : NfaBuild NfaFrag} (one : Allocates build size) (count : Nat) :
    Allocates (buildCopies build count) (RegexNode.copiesSize size count) := by
  cases count with
  | zero => exact .empty
  | succ count =>
      rw [buildCopies, RegexNode.copiesSize, Nat.succ_mul, Nat.add_comm]
      exact one.bind fun first => one.more count first

mutual

/-- The fragment of a syntax tree takes the states of the tree. -/
theorem buildNfaFrag_allocates : (node : RegexNode) → Allocates (buildNfaFrag node) node.nfaSize
  | .empty => by
      rw [buildNfaFrag, RegexNode.nfaSize]
      exact .empty
  | .byteClass set => by
      rw [buildNfaFrag, RegexNode.nfaSize]
      exact .byteSet set
  | .concat [] => by
      rw [buildNfaFrag, RegexNode.nfaSize]
      exact .empty
  | .concat (node :: nodes) => by
      rw [buildNfaFrag, RegexNode.nfaSize]
      exact (buildNfaFrag_allocates node).bind fun frag => buildConcatRest_allocates nodes frag
  | .alternation [] => by
      rw [buildNfaFrag, RegexNode.nfaSize]
      exact .empty
  | .alternation (node :: nodes) => by
      rw [buildNfaFrag, RegexNode.nfaSize]
      exact (buildNfaFrag_allocates node).bind fun frag => buildAlternationRest_allocates nodes frag
  | .star inner => by
      rw [buildNfaFrag, RegexNode.nfaSize]
      exact (buildNfaFrag_allocates inner).bind fun frag => .star frag
  | .plus inner => by
      rw [buildNfaFrag, RegexNode.nfaSize]
      exact (buildNfaFrag_allocates inner).bind fun frag => .plus frag
  | .optional inner => by
      rw [buildNfaFrag, RegexNode.nfaSize]
      exact (buildNfaFrag_allocates inner).bind fun frag => .optional frag
  | .countedExact inner n => by
      rw [buildNfaFrag, RegexNode.nfaSize]
      exact (buildNfaFrag_allocates inner).copies n
  | .countedRange inner n (some m) => by
      rw [buildNfaFrag, RegexNode.nfaSize]
      refine ((buildNfaFrag_allocates inner).copies n).bind fun mandatory => ?_
      by_cases same : m = n
      · rw [if_pos same, if_pos same]
        exact .pure mandatory
      · rw [if_neg same, if_neg same]
        have one := (buildNfaFrag_allocates inner).bind fun frag => Allocates.optional frag
        exact (one.copies (m - n)).bind fun optional => .concat mandatory optional
  | .countedRange inner n none => by
      rw [buildNfaFrag, RegexNode.nfaSize]
      refine ((buildNfaFrag_allocates inner).copies n).bind fun mandatory => ?_
      refine (buildNfaFrag_allocates inner).bind fun frag => ?_
      exact (Allocates.star frag).bind fun star => .concat mandatory star

theorem buildConcatRest_allocates :
    (nodes : List RegexNode) → (frag : NfaFrag) → Allocates (buildConcatRest nodes frag) (RegexNode.concatSize nodes)
  | [], frag => by
      rw [buildConcatRest, RegexNode.concatSize]
      exact .pure frag
  | node :: nodes, frag => by
      rw [buildConcatRest, RegexNode.concatSize]
      refine (buildNfaFrag_allocates node).bind fun next => ?_
      have rest := (Allocates.concat frag next).bind fun joined => buildConcatRest_allocates nodes joined
      rwa [Nat.zero_add] at rest

theorem buildAlternationRest_allocates : (nodes : List RegexNode) → (frag : NfaFrag) →
    Allocates (buildAlternationRest nodes frag) (RegexNode.alternationSize nodes)
  | [], frag => by
      rw [buildAlternationRest, RegexNode.alternationSize]
      exact .pure frag
  | node :: nodes, frag => by
      rw [buildAlternationRest, RegexNode.alternationSize]
      refine (buildNfaFrag_allocates node).bind fun next => ?_
      exact (Allocates.alternation frag next).bind fun joined => buildAlternationRest_allocates nodes joined

end

/-- The automaton of a tree is built exactly when its states fit the table. -/
theorem buildNfaFrag_iff {node : RegexNode} :
    (∃ result, buildNfaFrag node Nfa.new = .ok result) ↔ node.nfaSize ≤ maxNfaStates := by
  obtain ⟨fits, overflows⟩ := buildNfaFrag_allocates node Nfa.new (Nat.zero_le _)
  have size : Nfa.new.states.length + node.nfaSize = node.nfaSize := Nat.zero_add _
  rw [size] at fits overflows
  constructor
  · rintro ⟨result, run⟩
    by_contra full
    obtain ⟨error, wrong⟩ := overflows (Nat.lt_of_not_le full)
    rw [run] at wrong
    cases wrong
  · intro room
    obtain ⟨frag, nfa, run, _⟩ := fits room
    exact ⟨(frag, nfa), run⟩

end Nfa

namespace DfaBuilder

variable {nfa : Nfa} {accept start : Nat} {order : HashOrder UInt8} {builder builder' : DfaBuilder} {set : Finset Nat}

/-- A state set of the automaton is reached from the first one by bytes that lead somewhere. -/
inductive Reached (nfa : Nfa) (start : Nat) : Finset Nat → Prop
  | first : Reached nfa start (nfa.epsilonClosure {start})
  | move {set : Finset Nat} (b : UInt8) : Reached nfa start set → move nfa set b ≠ ∅ →
      Reached nfa start (DfaBuilder.move nfa set b)

/-- The reached state sets fit the table. -/
def FewSets (nfa : Nfa) (start : Nat) : Prop :=
  ∃ sets : List (Finset Nat), sets.length ≤ maxDfaStates ∧ ∀ set, Reached nfa start set → set ∈ sets

/-- The builder has an index for each of its states, and its state sets are reached. -/
structure Sound (nfa : Nfa) (start : Nat) (builder : DfaBuilder) : Prop where
  indexed : builder.dfaStates.length = builder.setToDfa.keys.length
  bounded : builder.dfaStates.length ≤ maxDfaStates
  reached : ∀ set ∈ builder.setToDfa, Reached nfa start set
  waiting : ∀ entry ∈ builder.worklist, Reached nfa start entry.1

variable (sound : Sound nfa start builder)
include sound

theorem Sound.connect (source : Nat) (b : UInt8) (target : Nat) :
    Sound nfa start (builder.connect source b target) where
  indexed := by
    rw [DfaBuilder.connect, List.length_modify]
    exact sound.indexed
  bounded := by
    rw [DfaBuilder.connect, List.length_modify]
    exact sound.bounded
  reached := sound.reached
  waiting := sound.waiting

theorem Sound.addState {isAccept : Bool} (reached : Reached nfa start set) (fresh : builder.setToDfa.lookup set = none)
    (room : builder.dfaStates.length < maxDfaStates) : Sound nfa start (builder.addState set isAccept) where
  indexed := by
    rw [DfaBuilder.addState, AList.keys_insert, List.length_cons, List.erase_of_not_mem, List.length_append,
      List.length_singleton, sound.indexed]
    rw [← AList.mem_keys]
    exact AList.lookup_eq_none.mp fresh
  bounded := by
    rw [DfaBuilder.addState, List.length_append, List.length_singleton]
    exact room
  reached other member := by
    rcases (AList.mem_insert _).mp member with rfl | old
    · exact reached
    · exact sound.reached other old
  waiting entry member := by
    rcases List.mem_append.mp member with old | new
    · exact sound.waiting entry old
    · rw [List.mem_singleton.mp new]
      exact reached

/-- In front of a full table, one more state set is one too many. -/
theorem Sound.room (few : FewSets nfa start) (reached : Reached nfa start set)
    (fresh : builder.setToDfa.lookup set = none) : builder.dfaStates.length < maxDfaStates := by
  obtain ⟨sets, length, all⟩ := few
  have absent : set ∉ builder.setToDfa.keys := by
    rw [← AList.mem_keys]
    exact AList.lookup_eq_none.mp fresh
  have distinct : (set :: builder.setToDfa.keys).Nodup := List.nodup_cons.mpr ⟨absent, AList.keys_nodup _⟩
  have inside : set :: builder.setToDfa.keys ⊆ sets := by
    intro other member
    rcases List.mem_cons.mp member with rfl | known
    · exact all other reached
    · exact all other (sound.reached other (AList.mem_keys.mpr known))
  have fewer := (distinct.subperm inside).length_le
  rw [List.length_cons, ← sound.indexed] at fewer
  omega

omit sound

theorem Sound.addTransitions (few : FewSets nfa start) (reached : Reached nfa start set) (dfaId : Nat)
    (bytes : List UInt8) (sound : Sound nfa start builder) :
    ∃ builder', addTransitions nfa accept dfaId (byteTargets nfa set) bytes builder = .ok builder' ∧
      Sound nfa start builder' := by
  induction bytes generalizing builder with
  | nil => exact ⟨builder, rfl, sound⟩
  | cons byte bytes ih =>
      rw [DfaBuilder.addTransitions]
      change ∃ builder', (if DfaBuilder.move nfa set byte = ∅ then _ else _) = _ ∧ _
      split
      · exact ih sound
      · rename_i somewhere
        split
        · exact ih (sound.connect dfaId byte _)
        · rename_i fresh
          have next := Reached.move byte reached somewhere
          have room := sound.room few next fresh
          rw [if_neg (Nat.not_le_of_lt room)]
          exact ih ((sound.addState next fresh room).connect dfaId byte _)

theorem Sound.explore (few : FewSets nfa start) (fuel moment : Nat) (sound : Sound nfa start builder) :
    ∃ builder', explore order nfa accept fuel moment builder = .ok builder' := by
  induction fuel generalizing moment builder with
  | zero => exact ⟨builder, rfl⟩
  | succ fuel ih =>
      rw [DfaBuilder.explore]
      split
      · exact ⟨builder, rfl⟩
      · rename_i set dfaId worklist front
        have reached := sound.waiting (set, dfaId) (front ▸ List.mem_cons_self)
        have rest : Sound nfa start { builder with worklist := worklist } :=
          ⟨sound.indexed, sound.bounded, sound.reached, fun entry member =>
            sound.waiting entry (front ▸ List.mem_cons_of_mem _ member)⟩
        obtain ⟨middle, run, sound'⟩ := rest.addTransitions few reached dfaId
          (order.iterate moment (byteTargets nfa set).keys.toFinset)
        dsimp only
        rw [run]
        exact ih (moment + 1) sound'

/-- The loops keep the bound of the table. -/
theorem addTransitions_bounded {targets : AList fun _ : UInt8 => Finset Nat} {dfaId : Nat} {bytes : List UInt8}
    (bounded : builder.dfaStates.length ≤ maxDfaStates)
    (run : DfaBuilder.addTransitions nfa accept dfaId targets bytes builder = .ok builder') :
    builder'.dfaStates.length ≤ maxDfaStates := by
  induction bytes generalizing builder with
  | nil =>
      cases run
      exact bounded
  | cons byte bytes ih =>
      rw [DfaBuilder.addTransitions] at run
      split at run
      · exact ih bounded run
      · split at run
        · apply ih _ run
          rw [DfaBuilder.connect, List.length_modify]
          exact bounded
        · split at run
          · cases run
          · apply ih _ run
            rw [DfaBuilder.connect, List.length_modify, DfaBuilder.addState, List.length_append,
              List.length_singleton]
            omega

theorem explore_bounded {fuel moment : Nat} (bounded : builder.dfaStates.length ≤ maxDfaStates)
    (run : DfaBuilder.explore order nfa accept fuel moment builder = .ok builder') :
    builder'.dfaStates.length ≤ maxDfaStates := by
  induction fuel generalizing moment builder with
  | zero =>
      cases run
      exact bounded
  | succ fuel ih =>
      rw [DfaBuilder.explore] at run
      split at run
      · cases run
        exact bounded
      · rename_i set dfaId worklist front
        obtain ⟨middle, stage, run⟩ := bind_ok run
        have kept : ({ builder with worklist := worklist } : DfaBuilder).dfaStates.length ≤ maxDfaStates := bounded
        exact ih (addTransitions_bounded kept stage) run

/-- The state sets of a complete automaton are closed under the bytes. -/
theorem Complete.reached {states : List DfaState} {more : List (Finset Nat)}
    (complete : Complete nfa accept states (nfa.epsilonClosure {start} :: more)) (reached : Reached nfa start set) :
    set ∈ nfa.epsilonClosure {start} :: more := by
  induction reached with
  | first => exact List.mem_cons_self
  | @move set b _ somewhere ih =>
      obtain ⟨i, here⟩ := List.mem_iff_getElem?.mp ih
      have inside := (List.getElem?_eq_some_iff.mp here).1
      rw [← complete.length] at inside
      rcases complete.transitions i set _ b here (List.getElem?_eq_getElem inside) with ⟨_, j, _, target⟩ | ⟨none, _⟩
      · exact List.mem_of_getElem? target
      · exact absurd none somewhere

/-- The automaton of state sets is built exactly when its state sets fit the table. -/
theorem buildDfa_iff (closed : nfa.Closed) (inside : start < nfa.states.length) :
    (∃ states, buildDfa order nfa accept start = .ok states) ↔ FewSets nfa start := by
  constructor
  · rintro ⟨states, run⟩
    obtain ⟨more, complete⟩ := buildDfa_complete closed inside run
    refine ⟨_, ?_, fun set reached => complete.reached reached⟩
    rw [buildDfa] at run
    obtain ⟨builder, stage, run⟩ := bind_ok run
    cases run
    rw [← complete.length]
    have one : (DfaBuilder.start nfa accept start).dfaStates.length ≤ maxDfaStates := by
      change 1 ≤ maxDfaStates
      decide
    exact explore_bounded one stage
  · intro few
    have sound : Sound nfa start (DfaBuilder.start nfa accept start) := by
      have empty : Sound nfa start ⟨[], ∅, []⟩ := ⟨rfl, Nat.zero_le _, by rintro _ ⟨⟩, by rintro _ ⟨⟩⟩
      exact empty.addState .first rfl (by decide : 0 < maxDfaStates)
    obtain ⟨builder, run⟩ := sound.explore few maxDfaStates 0
    refine ⟨builder.dfaStates, ?_⟩
    rw [buildDfa, run]
    rfl

end DfaBuilder

end Pictor
