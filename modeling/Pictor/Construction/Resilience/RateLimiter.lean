/-
Times and durations are seconds, and numbers of tokens are rational.
-/

import Mathlib.Data.List.AList
import Mathlib.Data.Rat.Floor

namespace Pictor

/-- The duration between two instants is zero if the first is the later one. -/
def durationSince (now earlier : Rat) : Rat := max (now - earlier) 0

structure TokenBucket where
  tokens : Rat
  capacity : Rat
  refillRate : Rat
  lastRefill : Rat

namespace TokenBucket

def new (capacity refillRate now : Rat) : TokenBucket := ⟨capacity, capacity, refillRate, now⟩

def refill (bucket : TokenBucket) (now : Rat) : TokenBucket :=
  { bucket with
    tokens := min (bucket.tokens + bucket.refillRate * durationSince now bucket.lastRefill) bucket.capacity
    lastRefill := now }

def tryConsume (bucket : TokenBucket) (n now : Rat) : Bool × TokenBucket :=
  let refilled := bucket.refill now
  if n ≤ refilled.tokens then (true, { refilled with tokens := refilled.tokens - n }) else (false, refilled)

/-- The conversion to an integer saturates. -/
def msUntilAvailable (bucket : TokenBucket) (n : Rat) : Nat :=
  if n ≤ bucket.tokens then 0
  else if bucket.refillRate = 0 then 2 ^ 64 - 1
  else min ⌈(n - bucket.tokens) / bucket.refillRate * 1000⌉.toNat (2 ^ 64 - 1)

end TokenBucket

inductive RateLimitDecision where
  | allow
  | deny (retryAfterMs : Nat)
  deriving DecidableEq

structure RateLimitConfig where
  rps : Rat
  burst : Rat
  maxClients : Nat
  clientTtl : Rat
  globalRps : Option Rat

/-- Each client has its bucket and the instant at which it was last seen. -/
structure RateLimiter (Client : Type) where
  config : RateLimitConfig
  clients : AList fun _ : Client => TokenBucket × Rat
  global : Option TokenBucket

/-- What the clock shows each time a request reads it while it holds the clients. -/
structure Readings where
  evicted : Rat
  created : Rat
  seen : Rat
  refilled : Rat

/-- The clock shows one instant during a call. -/
def Readings.once (now : Rat) : Readings := ⟨now, now, now, now⟩

namespace RateLimiter

variable {Client : Type} [DecidableEq Client]

def new (Client : Type) (config : RateLimitConfig) (now : Rat) : RateLimiter Client :=
  ⟨config, ∅, config.globalRps.map fun rps => .new (rps * 2) rps now⟩

/-- A request that finds less than one token is told to wait for at least a millisecond. -/
def denial (bucket : TokenBucket) : RateLimitDecision := .deny (max (bucket.msUntilAvailable 1) 1)

/-- The first part of a check, which does not refill the global bucket. -/
def checkGlobal (limiter : RateLimiter Client) : RateLimitDecision :=
  match limiter.global with
  | some global => if global.tokens < 1 then denial global else .allow
  | none => .allow

/-- The second part of a check, which refills the bucket of the client. -/
def checkClient (limiter : RateLimiter Client) (client : Client) (now : Rat) :
    RateLimitDecision × RateLimiter Client :=
  match limiter.clients.lookup client with
  | some (bucket, lastSeen) =>
      let refilled := bucket.refill now
      (if refilled.tokens < 1 then denial refilled else .allow,
        { limiter with clients := limiter.clients.insert client (refilled, lastSeen) })
  | none => (.allow, limiter)

/-- The first part of a request, which consumes from the global bucket. -/
def consumeGlobal (limiter : RateLimiter Client) (now : Rat) : RateLimitDecision × RateLimiter Client :=
  match limiter.global with
  | some global =>
      let (consumed, refilled) := global.tryConsume 1 now
      (if consumed then .allow else denial refilled, { limiter with global := some refilled })
  | none => (.allow, limiter)

/-- The client was seen within its time to live. -/
def active (limiter : RateLimiter Client) (now : Rat) (entry : TokenBucket × Rat) : Bool :=
  durationSince now entry.2 < limiter.config.clientTtl

def evictStale (limiter : RateLimiter Client) (now : Rat) : RateLimiter Client :=
  { limiter with clients :=
    ⟨limiter.clients.entries.filter fun entry => limiter.active now entry.2,
      List.NodupKeys.sublist List.filter_sublist limiter.clients.nodupKeys⟩ }

/-- Clients are evicted if there are too many. -/
def makeRoom (limiter : RateLimiter Client) (now : Rat) : RateLimiter Client :=
  if limiter.config.maxClients ≤ limiter.clients.entries.length then limiter.evictStale now else limiter

/-- A client that is not tracked gets a full bucket. -/
def bucketOrNew (limiter : RateLimiter Client) (client : Client) (now : Rat) : TokenBucket :=
  match limiter.clients.lookup client with
  | some (bucket, _) => bucket
  | none => .new limiter.config.burst limiter.config.rps now

/-- The second part of a request, which makes room for its client and consumes from the bucket of the client. -/
def consumeClient (limiter : RateLimiter Client) (client : Client) (readings : Readings) :
    RateLimitDecision × RateLimiter Client :=
  let roomy := limiter.makeRoom readings.evicted
  let (consumed, refilled) := (roomy.bucketOrNew client readings.created).tryConsume 1 readings.refilled
  (if consumed then .allow else denial refilled,
    { roomy with clients := roomy.clients.insert client (refilled, readings.seen) })

def check (limiter : RateLimiter Client) (client : Client) (now : Rat) : RateLimitDecision × RateLimiter Client :=
  match limiter.checkGlobal with
  | .deny retryAfterMs => (.deny retryAfterMs, limiter)
  | .allow => limiter.checkClient client now

def checkAndConsume (limiter : RateLimiter Client) (client : Client) (now : Rat) :
    RateLimitDecision × RateLimiter Client :=
  match limiter.consumeGlobal now with
  | (.deny retryAfterMs, limiter) => (.deny retryAfterMs, limiter)
  | (.allow, limiter) => limiter.consumeClient client (.once now)

def resetClient (limiter : RateLimiter Client) (client : Client) : RateLimiter Client :=
  { limiter with clients := limiter.clients.erase client }

end RateLimiter

end Pictor
