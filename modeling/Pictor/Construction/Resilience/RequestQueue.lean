/-
Times and durations are nanoseconds.
-/

import Mathlib.Data.UInt

namespace Pictor

inductive PoolError where
  | closed
  | empty
  | poisoned
  deriving DecidableEq

/-- The semaphore is the number of its permits. -/
structure EnginePool (Engine : Type) where
  idle : List Engine
  permits : Nat
  size : Nat

namespace EnginePool

variable {Engine : Type}

def new (engines : List Engine) : EnginePool Engine :=
  let size := max engines.length 1
  ⟨engines, size, size⟩

/-- The semaphore grants a permit if it has one. -/
def grant (pool : EnginePool Engine) : Option (EnginePool Engine) :=
  if 0 < pool.permits then some { pool with permits := pool.permits - 1 } else none

def release (pool : EnginePool Engine) : EnginePool Engine := { pool with permits := pool.permits + 1 }

/-- The last idle engine is taken. -/
def popIdle (pool : EnginePool Engine) : Except PoolError (Engine × EnginePool Engine) :=
  match pool.idle.getLast? with
  | some engine => .ok (engine, { pool with idle := pool.idle.dropLast })
  | none => .error .empty

/-- The body of the drop of a lease. The permit is released after it. -/
def pushIdle (pool : EnginePool Engine) (engine : Engine) : EnginePool Engine :=
  { pool with idle := pool.idle ++ [engine] }

end EnginePool

end Pictor

namespace Pictor

structure BoundedQueue (Item : Type) where
  queue : List Item
  capacity : Nat
  totalEnqueued : UInt64
  totalDequeued : UInt64
  totalDropped : UInt64

namespace BoundedQueue

variable {Item : Type}

/-- A capacity of zero fails an assertion. -/
def new (Item : Type) (capacity : Nat) : Option (BoundedQueue Item) :=
  if 0 < capacity then some ⟨[], capacity, 0, 0, 0⟩ else none

def accept (queue : BoundedQueue Item) (item : Item) : BoundedQueue Item :=
  { queue with queue := queue.queue ++ [item], totalEnqueued := queue.totalEnqueued + 1 }

def refuse (queue : BoundedQueue Item) : BoundedQueue Item :=
  { queue with totalDropped := queue.totalDropped + 1 }

def tryPush (queue : BoundedQueue Item) (item : Item) : Bool × BoundedQueue Item :=
  if queue.capacity ≤ queue.queue.length then (false, queue.refuse) else (true, queue.accept item)

/-- One pass of the loop. The deadline is read when the queue is full. -/
def pushTimeout (queue : BoundedQueue Item) (item : Item) (expired : Bool) : Option Bool × BoundedQueue Item :=
  if queue.queue.length < queue.capacity then (some true, queue.accept item)
  else if expired then (some false, queue.refuse)
  else (none, queue)

/-- A wait that timed out refuses the item without a look at the queue. -/
def pushWoken (queue : BoundedQueue Item) (item : Item) (timedOut expired : Bool) :
    Option Bool × BoundedQueue Item :=
  if timedOut then (some false, queue.refuse) else queue.pushTimeout item expired

def pop (queue : BoundedQueue Item) : Option Item × BoundedQueue Item :=
  match queue.queue with
  | [] => (none, queue)
  | item :: rest => (some item, { queue with queue := rest, totalDequeued := queue.totalDequeued + 1 })

/-- One pass of the loop. The deadline is read when the queue is empty. -/
def popTimeout (queue : BoundedQueue Item) (expired : Bool) : Option (Option Item) × BoundedQueue Item :=
  match queue.pop with
  | (some item, rest) => (some (some item), rest)
  | (none, _) => if expired then (some none, queue) else (none, queue)

/-- A wait that timed out ends the call only if the queue is empty. -/
def popWoken (queue : BoundedQueue Item) (timedOut expired : Bool) : Option (Option Item) × BoundedQueue Item :=
  if timedOut ∧ queue.queue.isEmpty then (some none, queue) else queue.popTimeout expired

def drain (queue : BoundedQueue Item) : List Item × BoundedQueue Item :=
  (queue.queue, { queue with
    queue := [], totalDequeued := queue.totalDequeued + UInt64.ofNat queue.queue.length })

end BoundedQueue

end Pictor

namespace Pictor

inductive CircuitState where
  | closed
  | opened
  | halfOpen
  deriving DecidableEq

structure CircuitBreakerConfig where
  failureThreshold : UInt64
  recoveryTimeout : Nat
  halfOpenMaxRequests : UInt64
  successThreshold : UInt64

structure CircuitBreaker where
  state : CircuitState
  failureCount : UInt64
  successCount : UInt64
  halfOpenRequests : UInt64
  lastFailureTime : Option Nat
  config : CircuitBreakerConfig

namespace CircuitBreaker

def new (config : CircuitBreakerConfig) : CircuitBreaker := ⟨.closed, 0, 0, 0, none, config⟩

/-- The recovery timeout has elapsed since the last failure. -/
def timeoutElapsed (breaker : CircuitBreaker) (now : Nat) : Bool :=
  match breaker.lastFailureTime with
  | some lastFailure => breaker.config.recoveryTimeout ≤ now - lastFailure
  | none => true

/-- The request that ends the open state is not counted. The counter wraps around. -/
def allowRequest (breaker : CircuitBreaker) (now : Nat) : Bool × CircuitBreaker :=
  match breaker.state with
  | .closed => (true, breaker)
  | .opened =>
      if breaker.timeoutElapsed now then
        (true, { breaker with state := .halfOpen, halfOpenRequests := 0, successCount := 0 })
      else (false, breaker)
  | .halfOpen =>
      (breaker.halfOpenRequests < breaker.config.halfOpenMaxRequests,
        { breaker with halfOpenRequests := breaker.halfOpenRequests + 1 })

def recordSuccess (breaker : CircuitBreaker) : CircuitBreaker :=
  match breaker.state with
  | .closed => { breaker with failureCount := 0 }
  | .halfOpen =>
      let count := breaker.successCount + 1
      if breaker.config.successThreshold ≤ count then
        { breaker with state := .closed, failureCount := 0, successCount := 0 }
      else { breaker with successCount := count }
  | .opened => breaker

def recordFailure (breaker : CircuitBreaker) (now : Nat) : CircuitBreaker :=
  match breaker.state with
  | .closed =>
      let count := breaker.failureCount + 1
      if breaker.config.failureThreshold ≤ count then
        { breaker with state := .opened, failureCount := count, lastFailureTime := some now }
      else { breaker with failureCount := count }
  | .halfOpen =>
      { breaker with state := .opened, lastFailureTime := some now, halfOpenRequests := 0, successCount := 0 }
  | .opened => { breaker with lastFailureTime := some now }

/-- A call that is not admitted is refused, and the outcome of any other call is recorded. -/
def record (breaker : CircuitBreaker) (now : Nat) (succeeded : Bool) : CircuitBreaker :=
  if succeeded then breaker.recordSuccess else breaker.recordFailure now

end CircuitBreaker

end Pictor
