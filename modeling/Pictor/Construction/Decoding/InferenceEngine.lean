import Mathlib.Data.List.Basic

namespace Pictor

variable {Model Params Rng Logits Failure : Type}

structure Sampler (Params Rng : Type) where
  params : Params
  rngState : Rng
  deriving DecidableEq

/-- The calls of the model and of the sampler. Each changes the state of its part, also if it fails. -/
structure EngineCalls (Model Params Rng Logits Failure : Type) where
  forwardPrefill : List UInt32 → Nat → Model → Except Failure Logits × Model
  forward : UInt32 → Nat → Model → Except Failure Logits × Model
  sample : Logits → Sampler Params Rng → Except Failure UInt32 × Sampler Params Rng
  seeded : UInt64 → Rng

/-- The numbers of observed durations, and the counter of tokens. -/
structure InferenceMetrics where
  prefillDurations : Nat
  decodeTokenDurations : Nat
  tokensGeneratedTotal : Nat
  deriving DecidableEq

structure EngineStats where
  totalTokensGenerated : Nat
  totalRequests : Nat
  deriving DecidableEq

/-- The records of a tracker of one request. -/
inductive TrackerRecord where
  | admission
  | firstToken
  | token
  deriving DecidableEq

/-- The receiver of a channel can be dropped. -/
structure Channel where
  connected : Bool
  received : List UInt32
  deriving DecidableEq

def Channel.send (channel : Channel) (token : UInt32) : Bool × Channel :=
  if channel.connected then (true, { channel with received := channel.received ++ [token] }) else (false, channel)

structure InferenceEngine (Model Params Rng : Type) where
  model : Model
  sampler : Sampler Params Rng
  metrics : Option InferenceMetrics
  stats : EngineStats
  rateAggregator : Option (List (List TrackerRecord))

namespace InferenceEngine

def eosTokenId : UInt32 := 151645

section Records

def observePrefill (engine : InferenceEngine Model Params Rng) : InferenceEngine Model Params Rng :=
  { engine with metrics := engine.metrics.map fun metrics =>
    { metrics with prefillDurations := metrics.prefillDurations + 1 } }

def observeDecode (engine : InferenceEngine Model Params Rng) : InferenceEngine Model Params Rng :=
  { engine with metrics := engine.metrics.map fun metrics =>
    { metrics with decodeTokenDurations := metrics.decodeTokenDurations + 1 } }

def countTokens (count : Nat) (engine : InferenceEngine Model Params Rng) : InferenceEngine Model Params Rng :=
  { engine with metrics := engine.metrics.map fun metrics =>
    { metrics with tokensGeneratedTotal := metrics.tokensGeneratedTotal + count } }

def recordRequest (count : Nat) (engine : InferenceEngine Model Params Rng) : InferenceEngine Model Params Rng :=
  { engine with stats := ⟨engine.stats.totalTokensGenerated + count, engine.stats.totalRequests + 1⟩ }

def aggregate (tracker : List TrackerRecord) (engine : InferenceEngine Model Params Rng) :
    InferenceEngine Model Params Rng :=
  { engine with rateAggregator := engine.rateAggregator.map (· ++ [tracker]) }

def setParams (params : Params) (engine : InferenceEngine Model Params Rng) : InferenceEngine Model Params Rng :=
  { engine with sampler := { engine.sampler with params } }

end Records

variable (calls : EngineCalls Model Params Rng Logits Failure)

def prefill (promptTokens : List UInt32) (engine : InferenceEngine Model Params Rng) :
    Except Failure Logits × InferenceEngine Model Params Rng :=
  let called := calls.forwardPrefill promptTokens 0 engine.model
  (called.1, { engine with model := called.2 })

def forward (token : UInt32) (pos : Nat) (engine : InferenceEngine Model Params Rng) :
    Except Failure Logits × InferenceEngine Model Params Rng :=
  let called := calls.forward token pos engine.model
  (called.1, { engine with model := called.2 })

def sample (logits : Logits) (engine : InferenceEngine Model Params Rng) :
    Except Failure UInt32 × InferenceEngine Model Params Rng :=
  let called := calls.sample logits engine.sampler
  (called.1, { engine with sampler := called.2 })

def generateLoop : Nat → Nat → Logits → List UInt32 → InferenceEngine Model Params Rng →
    Except Failure (List UInt32) × InferenceEngine Model Params Rng
  | 0, _, _, outputTokens, engine => (.ok outputTokens, engine)
  | budget + 1, pos, lastLogits, outputTokens, engine =>
      match engine.sample calls lastLogits with
      | (.error failure, engine) => (.error failure, engine)
      | (.ok nextToken, engine) =>
          if nextToken = eosTokenId then (.ok outputTokens, engine)
          else
            match engine.forward calls nextToken pos with
            | (.error failure, engine) => (.error failure, engine)
            | (.ok logits, engine) =>
                generateLoop budget (pos + 1) logits (outputTokens ++ [nextToken]) engine.observeDecode

def generate (promptTokens : List UInt32) (maxTokens : Nat) (engine : InferenceEngine Model Params Rng) :
    Except Failure (List UInt32) × InferenceEngine Model Params Rng :=
  if promptTokens = [] then (.ok [], engine)
  else
    match engine.prefill calls promptTokens with
    | (.error failure, engine) => (.error failure, engine)
    | (.ok lastLogits, engine) =>
        match generateLoop calls maxTokens promptTokens.length lastLogits [] engine.observePrefill with
        | (.error failure, engine) => (.error failure, engine)
        | (.ok outputTokens, engine) =>
            (.ok outputTokens, (engine.countTokens outputTokens.length).recordRequest outputTokens.length)

/-- The first token of a request has a record of its own. -/
def trackedLoop : Nat → Nat → Logits → List UInt32 → Bool → List TrackerRecord → InferenceEngine Model Params Rng →
    Except Failure (List UInt32) × List TrackerRecord × InferenceEngine Model Params Rng
  | 0, _, _, outputTokens, _, tracker, engine => (.ok outputTokens, tracker, engine)
  | budget + 1, pos, lastLogits, outputTokens, firstTokenRecorded, tracker, engine =>
      match engine.sample calls lastLogits with
      | (.error failure, engine) => (.error failure, tracker, engine)
      | (.ok nextToken, engine) =>
          if nextToken = eosTokenId then (.ok outputTokens, tracker, engine)
          else
            let tracker := tracker ++ [if firstTokenRecorded then .token else .firstToken]
            match engine.forward calls nextToken pos with
            | (.error failure, engine) => (.error failure, tracker, engine)
            | (.ok logits, engine) =>
                trackedLoop budget (pos + 1) logits (outputTokens ++ [nextToken]) true tracker engine.observeDecode

def generateTracked (promptTokens : List UInt32) (maxTokens : Nat) (tracker : List TrackerRecord)
    (engine : InferenceEngine Model Params Rng) :
    Except Failure (List UInt32) × List TrackerRecord × InferenceEngine Model Params Rng :=
  if promptTokens = [] then (.ok [], tracker, engine)
  else
    let tracker := tracker ++ [.admission]
    match engine.prefill calls promptTokens with
    | (.error failure, engine) => (.error failure, tracker, engine)
    | (.ok lastLogits, engine) =>
        match trackedLoop calls maxTokens promptTokens.length lastLogits [] false tracker engine.observePrefill with
        | (.error failure, tracker, engine) => (.error failure, tracker, engine)
        | (.ok outputTokens, tracker, engine) =>
            (.ok outputTokens, tracker,
              ((engine.countTokens outputTokens.length).recordRequest outputTokens.length).aggregate tracker)

/-- A token is sent before its forward pass and counted after it. -/
def streamingLoop : Nat → Nat → Logits → Nat → Channel → InferenceEngine Model Params Rng →
    Except Failure Nat × Channel × InferenceEngine Model Params Rng
  | 0, _, _, generated, tx, engine => (.ok generated, tx, engine)
  | budget + 1, pos, logits, generated, tx, engine =>
      match engine.sample calls logits with
      | (.error failure, engine) => (.error failure, tx, engine)
      | (.ok nextToken, engine) =>
          if nextToken = eosTokenId then (.ok generated, tx, engine)
          else
            match tx.send nextToken with
            | (false, tx) => (.ok generated, tx, engine)
            | (true, tx) =>
                match engine.forward calls nextToken pos with
                | (.error failure, engine) => (.error failure, tx, engine)
                | (.ok logits, engine) =>
                    streamingLoop budget (pos + 1) logits (generated + 1) tx engine.observeDecode

/-- The two streaming functions differ in the kind of their channel only. -/
def stream (promptTokens : List UInt32) (maxTokens : Nat) (tx : Channel) (engine : InferenceEngine Model Params Rng) :
    Except Failure Nat × Channel × InferenceEngine Model Params Rng :=
  if promptTokens = [] then (.ok 0, tx, engine)
  else
    match engine.prefill calls promptTokens with
    | (.error failure, engine) => (.error failure, tx, engine)
    | (.ok logits, engine) =>
        match streamingLoop calls maxTokens promptTokens.length logits 0 tx engine.observePrefill with
        | (.error failure, tx, engine) => (.error failure, tx, engine)
        | (.ok generated, tx, engine) => (.ok generated, tx, engine.countTokens generated)

/-- The channel is unbounded and asynchronous. -/
def generateStreaming (promptTokens : List UInt32) (maxTokens : Nat) (tx : Channel)
    (engine : InferenceEngine Model Params Rng) :
    Except Failure Nat × Channel × InferenceEngine Model Params Rng := engine.stream calls promptTokens maxTokens tx

/-- The channel is the synchronous one. -/
def generateStreamingSync (promptTokens : List UInt32) (maxTokens : Nat) (tx : Channel)
    (engine : InferenceEngine Model Params Rng) :
    Except Failure Nat × Channel × InferenceEngine Model Params Rng := engine.stream calls promptTokens maxTokens tx

/-- The sampler is replaced for the call. -/
def generateWithSeed (promptTokens : List UInt32) (maxTokens : Nat) (seed : UInt64) (params : Params)
    (engine : InferenceEngine Model Params Rng) :
    Except Failure (List UInt32) × InferenceEngine Model Params Rng :=
  let result := { engine with sampler := ⟨params, calls.seeded seed⟩ }.generate calls promptTokens maxTokens
  (result.1, { result.2 with sampler := engine.sampler })

/-- The parameters are replaced for the call. -/
def generateWithParams (promptTokens : List UInt32) (maxTokens : Nat) (params : Params)
    (engine : InferenceEngine Model Params Rng) :
    Except Failure (List UInt32) × InferenceEngine Model Params Rng :=
  let result := (engine.setParams params).generate calls promptTokens maxTokens
  (result.1, result.2.setParams engine.sampler.params)

def generateStreamingWithParams (promptTokens : List UInt32) (maxTokens : Nat) (params : Params) (tx : Channel)
    (engine : InferenceEngine Model Params Rng) :
    Except Failure Nat × Channel × InferenceEngine Model Params Rng :=
  let result := (engine.setParams params).generateStreaming calls promptTokens maxTokens tx
  (result.1, result.2.1, result.2.2.setParams engine.sampler.params)

end InferenceEngine

end Pictor
