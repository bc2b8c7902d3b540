import Pictor.Library.Tally

namespace Pictor
open Positions

inductive RequestPriority where
  | low | normal | high | critical
  deriving DecidableEq

/-- The discriminants order the priorities. -/
def RequestPriority.rank : RequestPriority → Nat
  | .low => 0
  | .normal => 1
  | .high => 2
  | .critical => 3

inductive RequestState where
  | waiting | prefilling | decoding | completed
  | failed (message : String)
  deriving DecidableEq

/-- What a caller asked for, with the id of the answer. -/
structure Submission (Params : Type) where
  id : Nat
  promptTokens : List UInt32
  params : Params
  maxTokens : Nat
  priority : RequestPriority
  deriving DecidableEq

/-- The field `started` tells whether the time of the first token is set. -/
structure BatchRequest (Params : Type) extends Submission Params where
  state : RequestState
  generatedTokens : List UInt32
  started : Bool
  deriving DecidableEq

variable {Params : Type}

def BatchRequest.new (id : Nat) (promptTokens : List UInt32) (params : Params) (maxTokens : Nat) :
    BatchRequest Params :=
  { id, promptTokens, params, maxTokens, priority := .normal, state := .waiting, generatedTokens := []
    started := false }

def BatchRequest.withPriority (request : BatchRequest Params) (priority : RequestPriority) :
    BatchRequest Params := { request with priority }

inductive SchedulerError where
  | queueFull (maxQueueSize : Nat)
  deriving DecidableEq

/-- The engine extends a context by one token after a reset. It fails, stops or gives the token. -/
abbrev Engine := List UInt32 → Except String (Option UInt32)

/-- One iteration of a request, and whether the request is finished. -/
def BatchRequest.advance (generate : Engine) (request : BatchRequest Params) : BatchRequest Params × Bool :=
  match generate (request.promptTokens ++ request.generatedTokens) with
  | .ok newToken =>
      let request := if request.started then request
        else { request with started := true, state := .decoding }
      let request := { request with generatedTokens := request.generatedTokens ++ newToken.toList }
      let hitMax := decide (request.maxTokens ≤ request.generatedTokens.length)
      let hitEos := newToken.isNone
      if hitMax || hitEos then ({ request with state := .completed }, true) else (request, false)
  | .error message => ({ request with state := .failed message }, true)

structure ContinuousBatchScheduler (Params : Type) where
  maxConcurrent : Nat
  maxQueueSize : Nat
  queue : List (BatchRequest Params)
  active : List (BatchRequest Params)
  completed : List (BatchRequest Params)
  nextId : Nat
  totalRequests : Nat
  totalTokensGenerated : Nat

namespace ContinuousBatchScheduler

def new (maxConcurrent maxQueueSize : Nat) : ContinuousBatchScheduler Params :=
  { maxConcurrent := max maxConcurrent 1, maxQueueSize := max maxQueueSize 1, queue := [], active := []
    completed := [], nextId := 1, totalRequests := 0, totalTokensGenerated := 0 }

def submitWithPriority (scheduler : ContinuousBatchScheduler Params) (promptTokens : List UInt32)
    (params : Params) (maxTokens : Nat) (priority : RequestPriority) :
    Except SchedulerError Nat × ContinuousBatchScheduler Params :=
  if scheduler.maxQueueSize ≤ scheduler.queue.length then
    (.error (.queueFull scheduler.maxQueueSize), scheduler)
  else
    let id := scheduler.nextId
    let request := (BatchRequest.new id promptTokens params maxTokens).withPriority priority
    let pos := scheduler.queue.findIdx fun other => other.priority.rank < priority.rank
    (.ok id, { scheduler with
      nextId := id + 1
      totalRequests := scheduler.totalRequests + 1
      queue := scheduler.queue.insertIdx pos request })

def submit (scheduler : ContinuousBatchScheduler Params) (promptTokens : List UInt32) (params : Params)
    (maxTokens : Nat) : Except SchedulerError Nat × ContinuousBatchScheduler Params :=
  scheduler.submitWithPriority promptTokens params maxTokens .normal

/-- The queue and the active set after the promotions. -/
def promoteLoop (maxConcurrent : Nat) : List (BatchRequest Params) → List (BatchRequest Params) →
    List (BatchRequest Params) × List (BatchRequest Params)
  | [], active => ([], active)
  | request :: queue, active =>
      if active.length < maxConcurrent then
        promoteLoop maxConcurrent queue (active ++ [{ request with state := .prefilling }])
      else (request :: queue, active)

def promote (scheduler : ContinuousBatchScheduler Params) : ContinuousBatchScheduler Params :=
  let promoted := promoteLoop scheduler.maxConcurrent scheduler.queue scheduler.active
  { scheduler with queue := promoted.1, active := promoted.2 }

/-- The request at a position of the active set is finished. -/
def retire (scheduler : ContinuousBatchScheduler Params) (idx : Nat) : ContinuousBatchScheduler Params :=
  match scheduler.active[idx]? with
  | none => scheduler
  | some request => { scheduler with
      active := scheduler.active.eraseIdx idx
      totalTokensGenerated := scheduler.totalTokensGenerated + request.generatedTokens.length
      completed := scheduler.completed ++ [request] }

def step (generate : Engine) (scheduler : ContinuousBatchScheduler Params) :
    ContinuousBatchScheduler Params :=
  let scheduler := scheduler.promote
  if scheduler.active.isEmpty then scheduler
  else
    let advanced := scheduler.active.map (BatchRequest.advance generate)
    let finishedIndices := positions Prod.snd advanced
    finishedIndices.reverse.foldl retire { scheduler with active := advanced.map Prod.fst }

def drainCompleted (scheduler : ContinuousBatchScheduler Params) :
    List (BatchRequest Params) × ContinuousBatchScheduler Params :=
  (scheduler.completed, { scheduler with completed := [] })

end ContinuousBatchScheduler

/-- A scheduler with the submissions that it accepted and the requests that were drained. -/
structure BatchService (Params : Type) where
  scheduler : ContinuousBatchScheduler Params
  submitted : List (Submission Params)
  drained : List (BatchRequest Params)

namespace BatchService

inductive Call (Params : Type) where
  | submitWithPriority (promptTokens : List UInt32) (params : Params) (maxTokens : Nat)
      (priority : RequestPriority)
  | step
  | drainCompleted

def new (maxConcurrent maxQueueSize : Nat) : BatchService Params :=
  ⟨.new maxConcurrent maxQueueSize, [], []⟩

def call (generate : Engine) (service : BatchService Params) : Call Params → BatchService Params
  | .submitWithPriority promptTokens params maxTokens priority =>
      let result := service.scheduler.submitWithPriority promptTokens params maxTokens priority
      match result.1 with
      | .ok id => { service with
          scheduler := result.2
          submitted := service.submitted ++ [⟨id, promptTokens, params, maxTokens, priority⟩] }
      | .error _ => { service with scheduler := result.2 }
  | .step => { service with scheduler := service.scheduler.step generate }
  | .drainCompleted =>
      let result := service.scheduler.drainCompleted
      { service with scheduler := result.2, drained := service.drained ++ result.1 }

def run (generate : Engine) (maxConcurrent maxQueueSize : Nat) (calls : List (Call Params)) :
    BatchService Params := calls.foldl (call generate) (new maxConcurrent maxQueueSize)

end BatchService

end Pictor
