import Pictor.Construction.Decoding.InferenceEngine

namespace Pictor.SpeculativeDecoding
open InferenceEngine

variable {Entry Cache : Type}

/-- A forward pass computes the entry of its position from the entries before it. The argmax of its logits is a
prediction from all of them. -/
structure GreedyModel (Entry : Type) where
  compute : List Entry → UInt32 → Entry
  predict : List Entry → UInt32

/-- The calls on the n-gram cache. -/
structure Drafter (Cache : Type) where
  new : Cache
  record : List UInt32 → Cache → Cache
  draft : Cache → List UInt32 → Nat → List UInt32

/-- The calls that fail in an iteration. A failed call can leave any entries from its first position on. -/
structure Faults (Entry : Type) where
  verify : Option (Nat → Entry)
  greedy : Option (Nat → Entry)
  forward : Bool

inductive ModelError where
  | prefill
  | forward
  deriving DecidableEq

/-- Everything that a run depends on. An iteration is named by the number of tokens before it. -/
structure Setup (Entry Cache : Type) where
  model : GreedyModel Entry
  drafter : Drafter Cache
  specEnabled : Bool
  prefillFails : Bool
  faults : Nat → Faults Entry

def speculationK : Nat := 4

def specWarmup : Nat := 15

section Calls

/-- The entries of the first positions. -/
def before (kv : Nat → Entry) (pos : Nat) : List Entry := (List.range pos).map kv

/-- The entries from a position on are lost. -/
def spoil (pos : Nat) (garbage kv : Nat → Entry) (index : Nat) : Entry :=
  if index < pos then kv index else garbage index

variable (model : GreedyModel Entry)

/-- The entry of the token is stored, and the next token is predicted. -/
def decode (token : UInt32) (pos : Nat) (kv : Nat → Entry) : UInt32 × (Nat → Entry) :=
  let kv := Function.update kv pos (model.compute (before kv pos) token)
  (model.predict (before kv (pos + 1)), kv)

/-- The tokens of a batch are decoded in their order. -/
def forwardBatch : List UInt32 → Nat → (Nat → Entry) → List UInt32 × (Nat → Entry)
  | [], _, kv => ([], kv)
  | token :: rest, pos, kv =>
      let first := decode model token pos kv
      let later := forwardBatch rest (pos + 1) first.2
      (first.1 :: later.1, later.2)

/-- The argmax of the logits of the last token. -/
def forwardPrefill (tokenIds : List UInt32) (kv : Nat → Entry) : UInt32 × (Nat → Entry) :=
  let called := forwardBatch model tokenIds 0 kv
  (called.1.getLastD 0, called.2)

def forwardPrefillVerify (tokenIds : List UInt32) (posStart : Nat) (kv : Nat → Entry) :
    List UInt32 × (Nat → Entry) := forwardBatch model tokenIds posStart kv

def forwardGreedyGpu (token : UInt32) (pos : Nat) (kv : Nat → Entry) : UInt32 × (Nat → Entry) :=
  decode model token pos kv

def forwardArgmax (token : UInt32) (pos : Nat) (kv : Nat → Entry) : UInt32 × (Nat → Entry) :=
  decode model token pos kv

end Calls

/-- The variables of the loop. -/
structure Loop (Entry Cache : Type) where
  kv : Nat → Entry
  ngramCache : Cache
  outputTokens : List UInt32
  context : List UInt32
  specAttempts : Nat
  specAcceptedTotal : Nat
  nextToken : UInt32
  pos : Nat

/-- An iteration ends the loop or goes on. -/
inductive Turn (Entry Cache : Type) where
  | stop (state : Loop Entry Cache)
  | next (state : Loop Entry Cache)

namespace Loop

/-- More than 60 percent of the drafted tokens were accepted, or it is the time to try again. -/
def specOk (state : Loop Entry Cache) : Bool :=
  if 5 ≤ state.specAttempts then
    12 * state.specAttempts < 5 * state.specAcceptedTotal || state.specAttempts % 20 = 0
  else true

def push (tokens : List UInt32) (state : Loop Entry Cache) : Loop Entry Cache :=
  { state with outputTokens := state.outputTokens ++ tokens, context := state.context ++ tokens }

/-- The last tokens of the context are recorded. -/
def recordWindow (drafter : Drafter Cache) (window : Nat) (state : Loop Entry Cache) : Loop Entry Cache :=
  { state with
    ngramCache := drafter.record (state.context.drop (state.context.length - window)) state.ngramCache }

variable (setup : Setup Entry Cache)

def draft (state : Loop Entry Cache) : List UInt32 :=
  if !setup.specEnabled || decide (state.outputTokens.length < specWarmup) then []
  else setup.drafter.draft state.ngramCache state.context speculationK

/-- The token of a single step ends the loop or is pushed. -/
def takeToken (called : UInt32 × (Nat → Entry)) (state : Loop Entry Cache) : Turn Entry Cache :=
  let state := { state with kv := called.2 }
  if called.1 = eosTokenId then .stop state
  else
    let state := (state.push [called.1]).recordWindow setup.drafter 3
    .next { state with nextToken := called.1, pos := state.pos + 1 }

/-- A single step falls back to the forward pass of the processor. -/
def singleStep (state : Loop Entry Cache) : Except ModelError (Turn Entry Cache) :=
  match (setup.faults state.outputTokens.length).greedy with
  | none => .ok (state.takeToken setup (forwardGreedyGpu setup.model state.nextToken (state.pos - 1) state.kv))
  | some garbage =>
      let kv := spoil (state.pos - 1) garbage state.kv
      if (setup.faults state.outputTokens.length).forward then .error .forward
      else .ok (state.takeToken setup (forwardArgmax setup.model state.nextToken (state.pos - 1) kv))

/-- The number of drafted tokens before the first one that the model does not predict. -/
def acceptedCount : List UInt32 → List UInt32 → Nat
  | drafted :: draft, predicted :: modelPreds =>
      if drafted = predicted then acceptedCount draft modelPreds + 1 else 0
  | _, _ => 0

/-- The accepted tokens are pushed up to an EOS, then the prediction behind them. -/
def takeVerified (draft modelPreds : List UInt32) (state : Loop Entry Cache) : Turn Entry Cache :=
  let accepted := acceptedCount draft modelPreds
  let state := { state with
    specAttempts := state.specAttempts + 1, specAcceptedTotal := state.specAcceptedTotal + accepted }
  let state := state.push ((draft.take accepted).takeWhile (· ≠ eosTokenId))
  if (draft.take accepted).contains eosTokenId then .stop state
  else
    match if accepted < modelPreds.length then modelPreds[accepted]? else modelPreds.getLast? with
    | none => .stop state
    | some bonus =>
        if bonus = eosTokenId then .stop state
        else
          let state := { state.push [bonus] with nextToken := bonus, pos := state.pos + (accepted + 1) }
          .next (state.recordWindow setup.drafter (accepted + 4))

def iterate (state : Loop Entry Cache) : Except ModelError (Turn Entry Cache) :=
  if state.draft setup ≠ [] ∧ state.specOk then
    match (setup.faults state.outputTokens.length).verify with
    | none =>
        let called := forwardPrefillVerify setup.model (state.nextToken :: state.draft setup) (state.pos - 1) state.kv
        .ok ({ state with kv := called.2 }.takeVerified setup (state.draft setup) called.1)
    | some garbage => { state with kv := spoil (state.pos - 1) garbage state.kv }.singleStep setup
  else state.singleStep setup

/-- The condition of the loop. -/
def Running (maxPos maxTokens : Nat) (state : Loop Entry Cache) : Prop :=
  state.pos < maxPos ∧ state.outputTokens.length < maxTokens

instance (maxPos maxTokens : Nat) (state : Loop Entry Cache) : Decidable (state.Running maxPos maxTokens) :=
  inferInstanceAs (Decidable (_ ∧ _))

/-- Each iteration adds a token, so the number of tokens bounds the iterations. -/
def run (maxPos maxTokens : Nat) : Nat → Loop Entry Cache → Except ModelError (Loop Entry Cache)
  | 0, state => .ok state
  | bound + 1, state =>
      if state.Running maxPos maxTokens then
        match state.iterate setup with
        | .error error => .error error
        | .ok (.stop state) => .ok state
        | .ok (.next state) =>
            if state.outputTokens.getLast? = some eosTokenId then
              .ok { state with outputTokens := state.outputTokens.dropLast }
            else run maxPos maxTokens bound state
      else .ok state

/-- The loop after the prefill and its first token. -/
def start (promptTokens : List UInt32) (kv : Nat → Entry) (firstToken : UInt32) : Loop Entry Cache where
  kv := kv
  ngramCache := setup.drafter.record promptTokens setup.drafter.new
  outputTokens := [firstToken]
  context := promptTokens ++ [firstToken]
  specAttempts := 0
  specAcceptedTotal := 0
  nextToken := firstToken
  pos := promptTokens.length + 1

end Loop

def generateGreedyGpu (setup : Setup Entry Cache) (kv : Nat → Entry) (promptTokens : List UInt32) (maxTokens : Nat) :
    Except ModelError (List UInt32) :=
  if promptTokens = [] then .ok []
  else if setup.prefillFails then .error .prefill
  else
    let called := forwardPrefill setup.model promptTokens kv
    if called.1 = eosTokenId then .ok []
    else
      ((Loop.start setup promptTokens called.2 called.1).run setup (promptTokens.length + maxTokens) maxTokens
        maxTokens).map Loop.outputTokens

end Pictor.SpeculativeDecoding
