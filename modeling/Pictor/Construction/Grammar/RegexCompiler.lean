import Mathlib.Data.List.AList
import Pictor.Construction.Grammar.Ast
import Pictor.Construction.Grammar.RegexParser
import Pictor.Library.HashOrder
import Pictor.Library.Worklist

namespace Pictor

def maxNfaStates : Nat := 16384

def maxDfaStates : Nat := 2048

structure NfaState where
  transitions : List (ByteSet × Nat)
  epsilon : List Nat
  isAccept : Bool

/-- A fragment has an entry state and one accepting state. -/
structure NfaFrag where
  start : Nat
  finish : Nat

structure Nfa where
  states : List NfaState

namespace NfaState

def new : NfaState := ⟨[], [], false⟩

end NfaState

/-- A builder changes the shared table of states, or it fails. -/
abbrev NfaBuild := StateT Nfa (Except RegexCompileError)

namespace Nfa

def new : Nfa := ⟨[]⟩

/-- The state at an index. The source indexes only with allocated states. -/
def stateAt (nfa : Nfa) (id : Nat) : NfaState := nfa.states.getD id .new

def modifyState (nfa : Nfa) (id : Nat) (change : NfaState → NfaState) : Nfa :=
  ⟨nfa.states.modify id change⟩

def alloc : NfaBuild Nat := fun nfa =>
  if maxNfaStates ≤ nfa.states.length then .error (.depthExceeded maxNfaStates)
  else .ok (nfa.states.length, ⟨nfa.states ++ [.new]⟩)

def withEpsilon (nfa : Nfa) (source target : Nat) : Nfa :=
  nfa.modifyState source fun state => { state with epsilon := state.epsilon ++ [target] }

def withTransition (nfa : Nfa) (source : Nat) (label : ByteSet) (target : Nat) : Nfa :=
  nfa.modifyState source fun state => { state with transitions := state.transitions ++ [(label, target)] }

def addEpsilon (source target : Nat) : NfaBuild Unit := fun nfa =>
  .ok ((), nfa.withEpsilon source target)

def addTransition (source : Nat) (label : ByteSet) (target : Nat) : NfaBuild Unit := fun nfa =>
  .ok ((), nfa.withTransition source label target)

/-- The seeds enter the worklist from the least to the greatest. -/
def epsilonClosure (nfa : Nfa) (seeds : Finset Nat) : Finset Nat :=
  (Worklist.close (fun _ _ state => (nfa.stateAt state).epsilon) nfa.states.length 0 seeds
    (HashOrder.rising seeds)).1

/-- One state that is both the start and the end. -/
def buildEmpty : NfaBuild NfaFrag := do
  let state ← alloc
  pure ⟨state, state⟩

def buildByteSet (label : ByteSet) : NfaBuild NfaFrag := do
  let start ← alloc
  let finish ← alloc
  addTransition start label finish
  pure ⟨start, finish⟩

def buildConcat (a b : NfaFrag) : NfaBuild NfaFrag := do
  addEpsilon a.finish b.start
  pure ⟨a.start, b.finish⟩

def buildAlternation (a b : NfaFrag) : NfaBuild NfaFrag := do
  let start ← alloc
  let finish ← alloc
  addEpsilon start a.start
  addEpsilon start b.start
  addEpsilon a.finish finish
  addEpsilon b.finish finish
  pure ⟨start, finish⟩

def buildStar (a : NfaFrag) : NfaBuild NfaFrag := do
  let start ← alloc
  let finish ← alloc
  addEpsilon start a.start
  addEpsilon start finish
  addEpsilon a.finish a.start
  addEpsilon a.finish finish
  pure ⟨start, finish⟩

/-- The loop state repeats the fragment or leaves it. -/
def buildPlus (a : NfaFrag) : NfaBuild NfaFrag := do
  let loopStart ← alloc
  let loopFinish ← alloc
  addEpsilon a.finish loopStart
  addEpsilon loopStart a.start
  addEpsilon loopStart loopFinish
  pure ⟨a.start, loopFinish⟩

def buildOptional (a : NfaFrag) : NfaBuild NfaFrag := do
  let start ← alloc
  let finish ← alloc
  addEpsilon start a.start
  addEpsilon start finish
  addEpsilon a.finish finish
  pure ⟨start, finish⟩

/-- The loop appends copies of a fragment. -/
def buildMore (build : NfaBuild NfaFrag) : Nat → NfaFrag → NfaBuild NfaFrag
  | 0, frag => pure frag
  | count + 1, frag => do
      let next ← build
      let frag ← buildConcat frag next
      buildMore build count frag

/-- No copy is the empty fragment. -/
def buildCopies (build : NfaBuild NfaFrag) : Nat → NfaBuild NfaFrag
  | 0 => buildEmpty
  | count + 1 => do
      let first ← build
      buildMore build count first

mutual

def buildNfaFrag : RegexNode → NfaBuild NfaFrag
  | .empty => buildEmpty
  | .byteClass set => buildByteSet set
  | .concat nodes =>
      match nodes with
      | [] => buildEmpty
      | node :: nodes => do
          let frag ← buildNfaFrag node
          buildConcatRest nodes frag
  | .alternation nodes =>
      match nodes with
      | [] => buildEmpty
      | node :: nodes => do
          let frag ← buildNfaFrag node
          buildAlternationRest nodes frag
  | .star inner => do
      let frag ← buildNfaFrag inner
      buildStar frag
  | .plus inner => do
      let frag ← buildNfaFrag inner
      buildPlus frag
  | .optional inner => do
      let frag ← buildNfaFrag inner
      buildOptional frag
  | .countedExact inner n => buildCopies (buildNfaFrag inner) n
  | .countedRange inner n (some m) => do
      let mandatory ← buildCopies (buildNfaFrag inner) n
      if m = n then pure mandatory
      else do
        let optional ← buildCopies (do buildOptional (← buildNfaFrag inner)) (m - n)
        buildConcat mandatory optional
  | .countedRange inner n none => do
      let mandatory ← buildCopies (buildNfaFrag inner) n
      let frag ← buildNfaFrag inner
      let star ← buildStar frag
      buildConcat mandatory star

def buildConcatRest : List RegexNode → NfaFrag → NfaBuild NfaFrag
  | [], frag => pure frag
  | node :: nodes, frag => do
      let next ← buildNfaFrag node
      let frag ← buildConcat frag next
      buildConcatRest nodes frag

def buildAlternationRest : List RegexNode → NfaFrag → NfaBuild NfaFrag
  | [], frag => pure frag
  | node :: nodes, frag => do
      let next ← buildNfaFrag node
      let frag ← buildAlternation frag next
      buildAlternationRest nodes frag

end

def markAccept (nfa : Nfa) (id : Nat) : Nfa :=
  nfa.modifyState id fun state => { state with isAccept := true }

end Nfa

structure DfaState where
  transitions : AList (fun _ : UInt8 => Nat)
  isAccept : Bool

/-- The state sets of the automaton, with their indices and the sets that still wait. -/
structure DfaBuilder where
  dfaStates : List DfaState
  setToDfa : AList (fun _ : Finset Nat => Nat)
  worklist : List (Finset Nat × Nat)

namespace DfaBuilder

/-- A new state set gets the next index. -/
def addState (builder : DfaBuilder) (set : Finset Nat) (isAccept : Bool) : DfaBuilder where
  dfaStates := builder.dfaStates ++ [⟨∅, isAccept⟩]
  setToDfa := builder.setToDfa.insert set builder.dfaStates.length
  worklist := builder.worklist ++ [(set, builder.dfaStates.length)]

def connect (builder : DfaBuilder) (source : Nat) (byte : UInt8) (target : Nat) : DfaBuilder :=
  { builder with
    dfaStates := builder.dfaStates.modify source fun state =>
      { state with transitions := state.transitions.insert byte target } }

def addTarget (targets : AList (fun _ : UInt8 => Finset Nat)) (edge : UInt8 × Nat) :
    AList (fun _ : UInt8 => Finset Nat) :=
  targets.insert edge.1 (insert edge.2 ((targets.lookup edge.1).getD ∅))

/-- The lettered edges of the states, in the order of the loops. -/
def letteredEdges (nfa : Nfa) (set : Finset Nat) : List (UInt8 × Nat) :=
  (HashOrder.rising set).flatMap fun state =>
    (nfa.stateAt state).transitions.flatMap fun transition =>
      transition.1.bytes.map fun byte => (byte, transition.2)

def byteTargets (nfa : Nfa) (set : Finset Nat) : AList (fun _ : UInt8 => Finset Nat) :=
  (letteredEdges nfa set).foldl addTarget ∅

/-- The loop over the bytes of one state set. -/
def addTransitions (nfa : Nfa) (nfaAccept dfaId : Nat) (targets : AList (fun _ : UInt8 => Finset Nat)) :
    List UInt8 → DfaBuilder → Except RegexCompileError DfaBuilder
  | [], builder => .ok builder
  | byte :: rest, builder =>
      let closure := nfa.epsilonClosure ((targets.lookup byte).getD ∅)
      if closure = ∅ then addTransitions nfa nfaAccept dfaId targets rest builder
      else
        match builder.setToDfa.lookup closure with
        | some existing =>
            addTransitions nfa nfaAccept dfaId targets rest (builder.connect dfaId byte existing)
        | none =>
            if maxDfaStates ≤ builder.dfaStates.length then .error (.depthExceeded maxDfaStates)
            else
              addTransitions nfa nfaAccept dfaId targets rest
                ((builder.addState closure (nfaAccept ∈ closure)).connect dfaId byte
                  builder.dfaStates.length)

/-- The loop over the waiting state sets. Each visit is one moment of the hash iteration. -/
def explore (order : HashOrder UInt8) (nfa : Nfa) (nfaAccept : Nat) :
    Nat → Nat → DfaBuilder → Except RegexCompileError DfaBuilder
  | 0, _, builder => .ok builder
  | fuel + 1, moment, builder =>
      match builder.worklist with
      | [] => .ok builder
      | (set, dfaId) :: worklist => do
          let targets := byteTargets nfa set
          let bytes := order.iterate moment targets.keys.toFinset
          let builder ← addTransitions nfa nfaAccept dfaId targets bytes
            { builder with worklist := worklist }
          explore order nfa nfaAccept fuel (moment + 1) builder

def start (nfa : Nfa) (nfaAccept nfaStart : Nat) : DfaBuilder :=
  let startClosure := nfa.epsilonClosure {nfaStart}
  addState ⟨[], ∅, []⟩ startClosure (nfaAccept ∈ startClosure)

end DfaBuilder

/-- The start state has the index zero. Every state set is visited once. -/
def buildDfa (order : HashOrder UInt8) (nfa : Nfa) (nfaAccept nfaStart : Nat) :
    Except RegexCompileError (List DfaState) := do
  let builder ← DfaBuilder.explore order nfa nfaAccept maxDfaStates 0
    (DfaBuilder.start nfa nfaAccept nfaStart)
  pure builder.dfaStates

namespace Grammar

/-- Each state gets the next identifier. -/
def allocStates : Nat → Nat → Grammar → List NonTerminalId × Grammar
  | 0, _, grammar => ([], grammar)
  | count + 1, i, grammar =>
      let (nt, grammar) := grammar.allocNt ("__regex_s" ++ toString i)
      let (ntIds, grammar) := allocStates count (i + 1) grammar
      (nt :: ntIds, grammar)

/-- The rules of one state of the automaton. -/
def stateRules (order : HashOrder UInt8) (moment : Nat) (ntIds : List NonTerminalId)
    (stateIdx : Nat) (state : DfaState) : List Rule :=
  (if state.isAccept then [⟨ntIds.getD stateIdx 0, []⟩] else []) ++
    (order.iterate moment state.transitions.keys.toFinset).map fun byte =>
      ⟨ntIds.getD stateIdx 0,
        [.terminal [byte], .nonTerminal (ntIds.getD ((state.transitions.lookup byte).getD 0) 0)]⟩

/-- The iterations over the transitions are later moments than those of the construction. -/
def dfaToGrammar (order : HashOrder UInt8) (dfaStates : List DfaState) (startIdx : Nat) : Grammar :=
  let (ntIds, grammar) := allocStates dfaStates.length 0 (Grammar.new 0)
  let grammar := { grammar with start := ntIds.getD startIdx 0 }
  dfaStates.zipIdx.foldl (fun grammar entry =>
    (stateRules order (maxDfaStates + entry.2) ntIds entry.2 entry.1).foldl addRule grammar) grammar

end Grammar

/-- The parser reads at most this many nested calls. -/
def parserFuel (input : List UInt8) : Nat := 6 * input.length + 3

def compileRegex (order : HashOrder UInt8) (pattern : List UInt8) : RegexParse Grammar := do
  if pattern = [] then throw .emptyPattern
  else
    let (ast, pos) ← RegexParser.parseAlternation pattern (parserFuel pattern) 0
    match RegexParser.peek pattern pos with
    | some byte => throw (.invalidSyntax ("unexpected character '" ++ RegexParser.charOf byte ++
        "' at position " ++ toString pos ++ " (unmatched ')'?)"))
    | none => do
        let (frag, nfa) ← ExceptT.mk (some (Nfa.buildNfaFrag ast Nfa.new))
        let dfaStates ← ExceptT.mk (some (buildDfa order (nfa.markAccept frag.finish) frag.finish
          frag.start))
        pure (Grammar.dfaToGrammar order dfaStates 0)

end Pictor
