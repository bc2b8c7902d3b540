import Mathlib.Data.Set.Finite.Basic
import Pictor.Proof.Resilience.LimiterRun

namespace Pictor.RateLimiter
open List

variable {Client : Type} [DecidableEq Client]

/-- A call that a client of the limiter makes at an instant. -/
inductive LimiterCall (Client : Type) where
  | check (client : Client)
  | checkAndConsume (client : Client)
  | evictStale
  | resetClient (client : Client)

/-- The decision that answers a call, and the limiter after it. -/
def respond (limiter : RateLimiter Client) (now : Rat) :
    LimiterCall Client → Option RateLimitDecision × RateLimiter Client
  | .check client => ((limiter.check client now).1, (limiter.check client now).2)
  | .checkAndConsume client => ((limiter.checkAndConsume client now).1, (limiter.checkAndConsume client now).2)
  | .evictStale => (none, limiter.evictStale now)
  | .resetClient client => (none, limiter.resetClient client)

/-- The answers to calls one after another. -/
def answers : RateLimiter Client → List (Rat × LimiterCall Client) → List (Option RateLimitDecision)
  | _, [] => []
  | limiter, (now, call) :: calls => (limiter.respond now call).1 :: answers (limiter.respond now call).2 calls

/-- The instants of the calls do not go back behind the clock. -/
def Ordered : Rat → List (Rat × LimiterCall Client) → Prop
  | _, [] => True
  | clock, (now, _) :: calls => clock ≤ now ∧ Ordered now calls

/-- The limiter after calls one after another. -/
def after : RateLimiter Client → List (Rat × LimiterCall Client) → RateLimiter Client
  | limiter, [] => limiter
  | limiter, (now, call) :: calls => after (limiter.respond now call).2 calls

/-- The last instant of some calls. -/
def lastInstant : Rat → List (Rat × LimiterCall Client) → Rat
  | clock, [] => clock
  | _, (now, _) :: calls => lastInstant now calls

/-- A denied request costs nothing: a check at the same instant agrees with it, and if it is denied, all later calls are
answered as if it had not been made. -/
structure CostsNothing (limiter : RateLimiter Client) (client : Client) (now : Rat) : Prop where
  agrees : (limiter.check client now).1 = .allow ↔ (limiter.checkAndConsume client now).1 = .allow
  traceless : (limiter.checkAndConsume client now).1 ≠ .allow → ∀ calls, Ordered now calls →
    answers (limiter.checkAndConsume client now).2 calls = answers limiter calls

/-- A bucket has the capacity for a request, and is full again when its client counts as stale. -/
structure Sound (config : RateLimitConfig) : Prop where
  burst : 1 ≤ config.burst
  rate : 0 < config.rps
  refills : config.burst ≤ config.rps * config.clientTtl

/-- The bucket of a client at an instant. A client that is not tracked has a full one. -/
def balance (limiter : RateLimiter Client) (client : Client) (now : Rat) : TokenBucket :=
  (limiter.bucketOrNew client now).refill now

/-- The global bucket denies the request, and its balance as it was refilled last gives the same denial. Or it has a
token both now and then, and so has the client. -/
def Settled (limiter : RateLimiter Client) (client : Client) (now : Rat) : Prop :=
  ∀ global, limiter.global = some global →
    if (global.refill now).tokens < 1 then denial global = denial (global.refill now)
    else 1 ≤ global.tokens ∧ 1 ≤ (limiter.balance client now).tokens

/-- The bucket of a client that was seen at an instant. It has at least what it has gained since then. -/
structure Tracks (config : RateLimitConfig) (clock : Rat) (entry : TokenBucket × Rat) : Prop where
  capacity : entry.1.capacity = config.burst
  rate : entry.1.refillRate = config.rps
  past : entry.2 ≤ entry.1.lastRefill ∧ entry.1.lastRefill ≤ clock
  gained : min config.burst (config.rps * (entry.1.lastRefill - entry.2)) ≤ entry.1.tokens
  most : entry.1.tokens ≤ config.burst

/-- The buckets of a limiter that has been used up to an instant. -/
structure Used (config : RateLimitConfig) (clock : Rat) (limiter : RateLimiter Client) : Prop where
  settings : limiter.config = config
  clients : ∀ client entry, limiter.clients.lookup client = some entry → Tracks config clock entry
  global : ∀ global, limiter.global = some global → ∃ rps, config.globalRps = some rps ∧ global.refillRate = rps ∧
    global.capacity = rps * 2 ∧ global.tokens ≤ rps * 2 ∧ global.lastRefill ≤ clock

/-- Two limiters that no later call can tell apart. -/
structure Alike (clock : Rat) (first second : RateLimiter Client) : Prop where
  peek : first.checkGlobal = second.checkGlobal
  global : ∀ now, clock ≤ now → (first.global.map fun global => global.refill now) =
    second.global.map fun global => global.refill now
  clients : ∀ client now, clock ≤ now → first.balance client now = second.balance client now

/-- A refill at an instant does not change a later one, whatever the sign of the rate. -/
theorem refill_twice {bucket : TokenBucket} {now later : Rat} (most : bucket.tokens ≤ bucket.capacity)
    (past : bucket.lastRefill ≤ now) (beyond : now ≤ later) : (bucket.refill now).refill later = bucket.refill later := by
  by_cases nonneg : 0 ≤ bucket.refillRate
  · exact TokenBucket.refill_refill nonneg past beyond
  · have falls (duration : Rat) (positive : 0 ≤ duration) :
        min (bucket.tokens + bucket.refillRate * duration) bucket.capacity =
          bucket.tokens + bucket.refillRate * duration := by
      have lost := mul_nonpos_of_nonpos_of_nonneg (le_of_not_ge nonneg) positive
      exact min_eq_left (by linarith)
    have split : bucket.refillRate * (later - bucket.lastRefill) =
        bucket.refillRate * (now - bucket.lastRefill) + bucket.refillRate * (later - now) := by ring
    have whole := falls (later - bucket.lastRefill) (sub_nonneg.mpr (past.trans beyond))
    simp only [TokenBucket.refill, durationSince, max_eq_left (sub_nonneg.mpr past),
      max_eq_left (sub_nonneg.mpr beyond), max_eq_left (sub_nonneg.mpr (past.trans beyond)), TokenBucket.mk.injEq,
      and_true]
    rw [falls _ (sub_nonneg.mpr past), whole, split]
    rw [split, ← add_assoc] at whole
    rw [whole, add_assoc]

section Tracks

variable {config : RateLimitConfig} {clock now : Rat} {entry : TokenBucket × Rat}

variable (tracks : Tracks config clock entry)
include tracks

/-- The bucket of a client has at least what it has gained since the client was seen. -/
theorem Tracks.refill_gained (rate : 0 < config.rps) (beyond : clock ≤ now) :
    min config.burst (config.rps * (now - entry.2)) ≤ (entry.1.refill now).tokens := by
  obtain ⟨seen, used⟩ := tracks.past
  have gained := tracks.gained
  have split : config.rps * (now - entry.2) =
      config.rps * (entry.1.lastRefill - entry.2) + config.rps * (now - entry.1.lastRefill) := by ring
  have later := mul_nonneg rate.le (sub_nonneg.mpr (used.trans beyond))
  simp only [TokenBucket.refill, durationSince, max_eq_left (sub_nonneg.mpr (used.trans beyond)), tracks.capacity,
    tracks.rate]
  apply le_min _ (min_le_left _ _)
  rw [split]
  rcases min_le_iff.mp gained with full | partly
  · exact (min_le_left _ _).trans (by linarith)
  · exact (min_le_right _ _).trans (by linarith)

theorem Tracks.refill (rate : 0 < config.rps) (beyond : clock ≤ now) :
    Tracks config now (entry.1.refill now, entry.2) where
  capacity := tracks.capacity
  rate := tracks.rate
  past := ⟨(tracks.past.1.trans tracks.past.2).trans beyond, le_refl _⟩
  gained := tracks.refill_gained rate beyond
  most := tracks.capacity ▸ entry.1.refill_tokens_le now

/-- The bucket of a stale client is as good as a new one. -/
theorem Tracks.refill_stale (sound : Sound config) (beyond : clock ≤ now)
    (stale : config.clientTtl ≤ durationSince now entry.2) :
    entry.1.refill now = TokenBucket.new config.burst config.rps now := by
  have gained := tracks.refill_gained sound.rate beyond
  have seen := tracks.past.1.trans (tracks.past.2.trans beyond)
  rw [durationSince, max_eq_left (sub_nonneg.mpr seen)] at stale
  have whole := sound.refills.trans (mul_le_mul_of_nonneg_left stale sound.rate.le)
  rw [min_eq_left whole] at gained
  have most := entry.1.refill_tokens_le now
  rw [tracks.capacity] at most
  have tokens := le_antisymm most gained
  rw [TokenBucket.refill] at tokens ⊢
  simp only at tokens
  rw [tokens, tracks.capacity, tracks.rate]
  rfl

end Tracks

section Balance

variable {config : RateLimitConfig} {limiter : RateLimiter Client} {clock now later : Rat} {client : Client}
  {entry : TokenBucket × Rat}

theorem balance_some (found : limiter.clients.lookup client = some entry) :
    limiter.balance client now = entry.1.refill now := by
  rw [balance, bucketOrNew, found]

theorem balance_none (found : limiter.clients.lookup client = none) :
    limiter.balance client now = .new limiter.config.burst limiter.config.rps now := by
  rw [balance, bucketOrNew, found]
  simp [TokenBucket.refill, TokenBucket.new, durationSince]

/-- The balance of a client is between zero and the burst. -/
theorem Used.balance_bounds (used : Used config clock limiter) (sound : Sound config) (beyond : clock ≤ now)
    (client : Client) : 0 ≤ (limiter.balance client now).tokens ∧
      (limiter.balance client now).tokens ≤ config.burst ∧ (limiter.balance client now).capacity = config.burst ∧
      (limiter.balance client now).refillRate = config.rps ∧ (limiter.balance client now).lastRefill = now := by
  have burst := sound.burst
  cases found : limiter.clients.lookup client with
  | none =>
      rw [balance_none found, used.settings]
      exact ⟨by change 0 ≤ config.burst; linarith, le_refl _, rfl, rfl, rfl⟩
  | some entry =>
      have tracks := used.clients client entry found
      have refilled := tracks.refill sound.rate beyond
      rw [balance_some found]
      refine ⟨?_, refilled.most, refilled.capacity, refilled.rate, rfl⟩
      have nonneg : 0 ≤ config.rps * (now - entry.2) :=
        mul_nonneg sound.rate.le (sub_nonneg.mpr ((tracks.past.1.trans tracks.past.2).trans beyond))
      exact (le_min (by linarith) nonneg).trans (tracks.refill_gained sound.rate beyond)

/-- The balance at a later instant only depends on the one at an earlier instant. -/
theorem Used.refill_balance (used : Used config clock limiter) (sound : Sound config) (beyond : clock ≤ now)
    (further : now ≤ later) (client : Client) :
    (limiter.balance client now).refill later = limiter.balance client later := by
  cases found : limiter.clients.lookup client with
  | none =>
      have burst : 0 ≤ config.rps * (later - now) := mul_nonneg sound.rate.le (sub_nonneg.mpr further)
      rw [balance_none found, balance_none found, used.settings]
      simp only [TokenBucket.refill, TokenBucket.new, durationSince, max_eq_left (sub_nonneg.mpr further),
        TokenBucket.mk.injEq, and_true]
      exact min_eq_right (le_add_of_nonneg_right burst)
  | some entry =>
      have tracks := used.clients client entry found
      rw [balance_some found, balance_some found]
      exact TokenBucket.refill_refill (tracks.rate ▸ sound.rate.le) (tracks.past.2.trans beyond) further

omit [DecidableEq Client] in
theorem active_eq_false (idle : limiter.active now entry = false) :
    limiter.config.clientTtl ≤ durationSince now entry.2 := by
  rw [active, decide_eq_false_iff_not, not_lt] at idle
  exact idle

variable (used : Used config clock limiter)
include used

/-- Stale clients have full buckets, so their eviction changes no balance. -/
theorem Used.balance_evictStale (sound : Sound config) (beyond : clock ≤ now) (further : now ≤ later) (client : Client) :
    (limiter.evictStale now).balance client later = limiter.balance client later := by
  have kept := lookup_evictStale limiter client now
  cases found : limiter.clients.lookup client with
  | none =>
      rw [found] at kept
      rw [balance_none kept, balance_none found]
      rfl
  | some entry =>
      rw [found] at kept
      cases active : limiter.active now entry with
      | true =>
          rw [Option.filter_some_pos active] at kept
          rw [balance_some kept, balance_some found]
      | false =>
          rw [Option.filter_some_neg active] at kept
          have stale := active_eq_false active
          rw [used.settings] at stale
          have longer : durationSince now entry.2 ≤ durationSince later entry.2 :=
            max_le_max (sub_le_sub_right further _) (le_refl _)
          rw [balance_none kept, balance_some found,
            (used.clients client entry found).refill_stale sound (beyond.trans further) (stale.trans longer)]
          change TokenBucket.new limiter.config.burst limiter.config.rps later = _
          rw [used.settings]

theorem Used.evictStale (beyond : clock ≤ now) : Used config now (limiter.evictStale now) where
  settings := used.settings
  clients client entry found := by
    rw [lookup_evictStale, Option.filter_eq_some_iff] at found
    have tracks := used.clients client entry found.1
    exact ⟨tracks.capacity, tracks.rate, ⟨tracks.past.1, tracks.past.2.trans beyond⟩, tracks.gained, tracks.most⟩
  global global found := by
    obtain ⟨rps, limit, rate, capacity, most, past⟩ := used.global global found
    exact ⟨rps, limit, rate, capacity, most, past.trans beyond⟩

theorem Used.wait (beyond : clock ≤ now) : Used config now limiter where
  settings := used.settings
  clients client entry found := by
    have tracks := used.clients client entry found
    exact ⟨tracks.capacity, tracks.rate, ⟨tracks.past.1, tracks.past.2.trans beyond⟩, tracks.gained, tracks.most⟩
  global global found := by
    obtain ⟨rps, limit, rate, capacity, most, past⟩ := used.global global found
    exact ⟨rps, limit, rate, capacity, most, past.trans beyond⟩

theorem Used.makeRoom (beyond : clock ≤ now) : Used config now (limiter.makeRoom now) := by
  rw [RateLimiter.makeRoom]
  split
  · exact used.evictStale beyond
  · exact used.wait beyond

theorem Used.balance_makeRoom (sound : Sound config) (beyond : clock ≤ now) (further : now ≤ later) (client : Client) :
    (limiter.makeRoom now).balance client later = limiter.balance client later := by
  rw [RateLimiter.makeRoom]
  split
  · exact used.balance_evictStale sound beyond further client
  · rfl

omit used

/-- A client that is tracked with a bucket has that bucket as its balance. -/
theorem balance_insert {other : Client} :
    ({ limiter with clients := limiter.clients.insert client entry } : RateLimiter Client).balance other later =
      if other = client then entry.1.refill later else limiter.balance other later := by
  by_cases same : other = client
  · rw [if_pos same, same]
    exact balance_some (AList.lookup_insert _)
  · rw [if_neg same]
    have found : (limiter.clients.insert client entry).lookup other = limiter.clients.lookup other :=
      AList.lookup_insert_ne same
    cases tracked : limiter.clients.lookup other with
    | none => exact (balance_none (found.trans tracked)).trans (balance_none tracked).symm
    | some value => exact (balance_some (found.trans tracked)).trans (balance_some tracked).symm

theorem Used.insert (used : Used config now limiter) (tracks : Tracks config now entry) :
    Used config now { limiter with clients := limiter.clients.insert client entry } where
  settings := used.settings
  clients other value found := by
    by_cases same : other = client
    · rw [same] at found
      have inserted := @AList.lookup_insert Client (fun _ => TokenBucket × Rat) _ client entry limiter.clients
      rw [← Option.some.inj (inserted.symm.trans found)]
      exact tracks
    · exact used.clients other value ((AList.lookup_insert_ne same).symm.trans found)
  global := used.global

end Balance

section Parts

variable {config : RateLimitConfig} {limiter : RateLimiter Client} {clock now later : Rat}

def charge (bucket : TokenBucket) : TokenBucket := { bucket with tokens := bucket.tokens - 1 }

/-- A request takes a token from a bucket that was refilled. -/
def spend (bucket : TokenBucket) : Bool × TokenBucket :=
  if 1 ≤ bucket.tokens then (true, charge bucket) else (false, bucket)

theorem tryConsume_eq (bucket : TokenBucket) (now : Rat) : bucket.tryConsume 1 now = spend (bucket.refill now) := rfl

def verdict (bucket : TokenBucket) : RateLimitDecision := if bucket.tokens < 1 then denial bucket else .allow

theorem verdict_spend (bucket : TokenBucket) :
    (if (spend bucket).1 then RateLimitDecision.allow else denial (spend bucket).2) = verdict bucket := by
  rw [spend, verdict]
  by_cases enough : 1 ≤ bucket.tokens
  · simp [enough, not_lt.mpr enough]
  · simp [enough, not_le.mp enough]

variable (used : Used config clock limiter)
include used

/-- A check answers from the balance of its client. -/
theorem Used.checkClient_fst (sound : Sound config) (client : Client) :
    (limiter.checkClient client now).1 = verdict (limiter.balance client now) := by
  rw [checkClient]
  cases found : limiter.clients.lookup client with
  | none =>
      rw [balance_none found, used.settings, verdict]
      exact (if_neg (not_lt.mpr sound.burst)).symm
  | some entry =>
      rw [balance_some found]
      rfl

theorem Used.checkClient (sound : Sound config) (beyond : clock ≤ now) (client : Client) :
    Used config now (limiter.checkClient client now).2 ∧ (limiter.checkClient client now).2.global = limiter.global ∧
      ∀ other later, now ≤ later → (limiter.checkClient client now).2.balance other later =
        limiter.balance other later := by
  rw [RateLimiter.checkClient]
  cases found : limiter.clients.lookup client with
  | none => exact ⟨used.wait beyond, rfl, fun _ _ _ => rfl⟩
  | some entry =>
      have tracks := used.clients client entry found
      refine ⟨(used.wait beyond).insert (tracks.refill sound.rate beyond), rfl, fun other later further => ?_⟩
      refine balance_insert.trans ?_
      by_cases same : other = client
      · rw [if_pos same, same, balance_some found]
        exact TokenBucket.refill_refill (tracks.rate ▸ sound.rate.le) (tracks.past.2.trans beyond) further
      · rw [if_neg same]

/-- The request of a client is answered from its balance, and takes a token from it. -/
theorem Used.consumeClient (sound : Sound config) (beyond : clock ≤ now) (client : Client) :
    (limiter.consumeClient client (.once now)).1 = verdict (limiter.balance client now) ∧
      Used config now (limiter.consumeClient client (.once now)).2 ∧
      (limiter.consumeClient client (.once now)).2.global = limiter.global ∧
      ∀ other later, now ≤ later → (limiter.consumeClient client (.once now)).2.balance other later =
        if other = client then (spend (limiter.balance client now)).2.refill later else limiter.balance other later := by
  have roomy := used.makeRoom beyond
  have balanced : ((limiter.makeRoom now).bucketOrNew client now).tryConsume 1 now =
      spend (limiter.balance client now) := by
    rw [tryConsume_eq, ← used.balance_makeRoom sound beyond (le_refl now) client, balance]
  have consumed : limiter.consumeClient client (.once now) = (verdict (limiter.balance client now),
      { limiter.makeRoom now with
        clients := (limiter.makeRoom now).clients.insert client ((spend (limiter.balance client now)).2, now) }) := by
    rw [RateLimiter.consumeClient]
    simp only [Readings.once, balanced, verdict_spend]
  obtain ⟨nonneg, most, capacity, rate, refilled⟩ := used.balance_bounds sound beyond client
  have tracks : Tracks config now ((spend (limiter.balance client now)).2, now) := by
    have burst := sound.burst
    rw [spend]
    split
    · rename_i enough
      refine ⟨capacity, rate, ⟨refilled.ge, refilled.le⟩, ?_, ?_⟩
      · change min _ (_ * ((limiter.balance client now).lastRefill - now)) ≤ (limiter.balance client now).tokens - 1
        rw [refilled, sub_self, mul_zero, min_eq_right (by linarith)]
        exact sub_nonneg.mpr enough
      · change _ - 1 ≤ _
        linarith
    · refine ⟨capacity, rate, ⟨refilled.ge, refilled.le⟩, ?_, most⟩
      rw [refilled, sub_self, mul_zero, min_eq_right (by linarith)]
      exact nonneg
  rw [consumed]
  refine ⟨rfl, roomy.insert tracks, makeRoom_global limiter now, fun other later further => ?_⟩
  refine balance_insert.trans ?_
  rw [used.balance_makeRoom sound beyond further]

omit used

variable {global : TokenBucket}

omit [DecidableEq Client] in
theorem consumeGlobal_some (found : limiter.global = some global) :
    limiter.consumeGlobal now = (verdict (global.refill now),
      { limiter with global := some (spend (global.refill now)).2 }) := by
  rw [consumeGlobal, found]
  exact Prod.ext (verdict_spend (global.refill now)) rfl

theorem checkAndConsume_none (client : Client) (found : limiter.global = none) :
    limiter.checkAndConsume client now = limiter.consumeClient client (.once now) := by
  rw [checkAndConsume, consumeGlobal, found]

theorem checkAndConsume_denied (client : Client) (found : limiter.global = some global)
    (short : (global.refill now).tokens < 1) : limiter.checkAndConsume client now =
      (denial (global.refill now), { limiter with global := some (global.refill now) }) := by
  rw [checkAndConsume, consumeGlobal_some found, verdict, if_pos short, spend, if_neg (not_le.mpr short)]
  rfl

theorem checkAndConsume_passed (client : Client) (found : limiter.global = some global)
    (enough : 1 ≤ (global.refill now).tokens) : limiter.checkAndConsume client now =
      { limiter with global := some (charge (global.refill now)) }.consumeClient client (.once now) := by
  rw [checkAndConsume, consumeGlobal_some found, verdict, if_neg (not_lt.mpr enough), spend, if_pos enough]

variable (used : Used config clock limiter)
include used

/-- The global bucket of a limiter is only refilled and charged. -/
theorem Used.setGlobal {charged : TokenBucket} (beyond : clock ≤ now) (found : limiter.global = some global)
    (rate : charged.refillRate = global.refillRate) (capacity : charged.capacity = global.capacity)
    (most : charged.tokens ≤ charged.capacity) (refilled : charged.lastRefill = now) :
    Used config now { limiter with global := some charged } where
  settings := used.settings
  clients := (used.wait beyond).clients
  global other same := by
    obtain ⟨rps, limit, rate', capacity', _, _⟩ := used.global global found
    rw [← Option.some.inj same]
    exact ⟨rps, limit, rate.trans rate', capacity.trans capacity', (capacity.trans capacity') ▸ most, refilled.le⟩

theorem Used.refillGlobal (beyond : clock ≤ now) (found : limiter.global = some global) :
    Used config now { limiter with global := some (global.refill now) } :=
  used.setGlobal beyond found rfl rfl (global.refill_tokens_le now) rfl

theorem Used.chargeGlobal (beyond : clock ≤ now) (found : limiter.global = some global) :
    Used config now { limiter with global := some (charge (global.refill now)) } := by
  have most := global.refill_tokens_le now
  have less : (charge (global.refill now)).tokens ≤ (charge (global.refill now)).capacity := by
    change (global.refill now).tokens - 1 ≤ global.capacity
    linarith
  exact used.setGlobal beyond found rfl rfl less rfl

end Parts

section Alike

variable {config : RateLimitConfig} {first second : RateLimiter Client} {clock now : Rat}

theorem alike_of_global (same : first.global = second.global)
    (clients : ∀ client later, clock ≤ later → first.balance client later = second.balance client later) :
    Alike clock first second where
  peek := by rw [checkGlobal, checkGlobal, same]
  global _ _ := by rw [same]
  clients := clients

/-- Limiters that are alike answer a request alike and stay so. -/
theorem Alike.consumeClient (sound : Sound config) (used : Used config clock first) (used' : Used config clock second)
    (same : first.global = second.global) (beyond : clock ≤ now)
    (clients : ∀ client later, clock ≤ later → first.balance client later = second.balance client later)
    (client : Client) : (first.consumeClient client (.once now)).1 = (second.consumeClient client (.once now)).1 ∧
      Used config now (first.consumeClient client (.once now)).2 ∧
      Used config now (second.consumeClient client (.once now)).2 ∧
      Alike now (first.consumeClient client (.once now)).2 (second.consumeClient client (.once now)).2 := by
  obtain ⟨answer, kept, global, balances⟩ := used.consumeClient sound beyond client
  obtain ⟨answer', kept', global', balances'⟩ := used'.consumeClient sound beyond client
  refine ⟨?_, kept, kept', alike_of_global ?_ fun other later further => ?_⟩
  · rw [answer, answer', clients client now beyond]
  · rw [global, global', same]
  · rw [balances other later further, balances' other later further, clients client now beyond,
      clients other later (beyond.trans further)]

theorem Alike.respond (alike : Alike clock first second) (sound : Sound config) (used : Used config clock first)
    (used' : Used config clock second) (beyond : clock ≤ now) (call : LimiterCall Client) :
    (first.respond now call).1 = (second.respond now call).1 ∧ Used config now (first.respond now call).2 ∧
      Used config now (second.respond now call).2 ∧ Alike now (first.respond now call).2 (second.respond now call).2 := by
  have refills := alike.global now beyond
  cases call with
  | check client =>
      change some (first.check client now).1 = some (second.check client now).1 ∧
        Used config now (first.check client now).2 ∧ Used config now (second.check client now).2 ∧
        Alike now (first.check client now).2 (second.check client now).2
      rw [check, check, alike.peek]
      cases second.checkGlobal with
      | deny retryAfterMs =>
          exact ⟨rfl, used.wait beyond, used'.wait beyond, alike.peek, fun later further =>
            alike.global later (beyond.trans further), fun other later further =>
            alike.clients other later (beyond.trans further)⟩
      | allow =>
          obtain ⟨kept, global, balances⟩ := used.checkClient sound beyond client
          obtain ⟨kept', global', balances'⟩ := used'.checkClient sound beyond client
          refine ⟨?_, kept, kept', ?_, fun later further => ?_, fun other later further => ?_⟩
          · rw [used.checkClient_fst sound, used'.checkClient_fst sound, alike.clients client now beyond]
          · have peek := alike.peek
            rw [checkGlobal, checkGlobal] at peek ⊢
            rw [global, global']
            exact peek
          · rw [global, global']
            exact alike.global later (beyond.trans further)
          · rw [balances other later further, balances' other later further]
            exact alike.clients other later (beyond.trans further)
  | checkAndConsume client =>
      change some (first.checkAndConsume client now).1 = some (second.checkAndConsume client now).1 ∧
        Used config now (first.checkAndConsume client now).2 ∧ Used config now (second.checkAndConsume client now).2 ∧
        Alike now (first.checkAndConsume client now).2 (second.checkAndConsume client now).2
      cases found : first.global with
      | none =>
          have found' : second.global = none := by
            rw [found] at refills
            exact Option.map_eq_none_iff.mp refills.symm
          rw [checkAndConsume_none client found, checkAndConsume_none client found']
          obtain ⟨answer, rest⟩ := Alike.consumeClient sound used used' (found.trans found'.symm) beyond alike.clients client
          exact ⟨congrArg some answer, rest⟩
      | some global =>
          obtain ⟨global', found', same⟩ : ∃ global', second.global = some global' ∧
              global'.refill now = global.refill now := by
            rw [found] at refills
            exact Option.map_eq_some_iff.mp refills.symm
          by_cases short : (global.refill now).tokens < 1
          · rw [checkAndConsume_denied client found short, checkAndConsume_denied client found' (same ▸ short), same]
            have kept' := used'.refillGlobal beyond found'
            rw [same] at kept'
            exact ⟨rfl, used.refillGlobal beyond found, kept', alike_of_global rfl fun other later further =>
              alike.clients other later (beyond.trans further)⟩
          · have kept := used.chargeGlobal beyond found
            have kept' := used'.chargeGlobal beyond found'
            rw [checkAndConsume_passed client found (not_lt.mp short),
              checkAndConsume_passed client found' (same ▸ not_lt.mp short), same]
            rw [same] at kept'
            obtain ⟨answer, rest⟩ := Alike.consumeClient sound kept kept' rfl (le_refl now) (fun other later further =>
              alike.clients other later (beyond.trans further)) client
            exact ⟨congrArg some answer, rest⟩
  | evictStale =>
      refine ⟨rfl, used.evictStale beyond, used'.evictStale beyond, alike.peek, fun later further =>
        alike.global later (beyond.trans further), fun other later further => ?_⟩
      change (first.evictStale now).balance other later = (second.evictStale now).balance other later
      rw [used.balance_evictStale sound beyond further, used'.balance_evictStale sound beyond further]
      exact alike.clients other later (beyond.trans further)
  | resetClient client =>
      have erased {limiter : RateLimiter Client} (used : Used config clock limiter) :
          Used config now (limiter.resetClient client) ∧ ∀ other later,
            (limiter.resetClient client).balance other later = if other = client then
              .new config.burst config.rps later else limiter.balance other later := by
        constructor
        · refine ⟨used.settings, fun other entry found => ?_, (used.wait beyond).global⟩
          by_cases same : other = client
          · rw [same] at found
            exact absurd ((AList.lookup_erase _ _).symm.trans found) nofun
          · exact (used.wait beyond).clients other entry ((AList.lookup_erase_ne same).symm.trans found)
        · intro other later
          by_cases same : other = client
          · rw [if_pos same, same, balance_none (AList.lookup_erase _ _)]
            change TokenBucket.new limiter.config.burst limiter.config.rps later = _
            rw [used.settings]
          · rw [if_neg same]
            have kept : (limiter.resetClient client).clients.lookup other = limiter.clients.lookup other :=
              AList.lookup_erase_ne same
            cases found : limiter.clients.lookup other with
            | none => exact (balance_none (kept.trans found)).trans (balance_none found).symm
            | some entry => exact (balance_some (kept.trans found)).trans (balance_some found).symm
      refine ⟨rfl, (erased used).1, (erased used').1, alike.peek, fun later further =>
        alike.global later (beyond.trans further), fun other later further => ?_⟩
      change (first.resetClient client).balance other later = (second.resetClient client).balance other later
      rw [(erased used).2, (erased used').2, alike.clients other later (beyond.trans further)]

/-- Limiters that are alike answer all later calls alike. -/
theorem Alike.answers (alike : Alike clock first second) (sound : Sound config) (used : Used config clock first)
    (used' : Used config clock second) (calls : List (Rat × LimiterCall Client)) (ordered : Ordered clock calls) :
    RateLimiter.answers first calls = RateLimiter.answers second calls := by
  induction calls generalizing first second clock with
  | nil => rfl
  | cons timed calls ih =>
      obtain ⟨now, call⟩ := timed
      obtain ⟨answer, kept, kept', alike⟩ := alike.respond sound used used' ordered.1 call
      exact cons_eq_cons.mpr ⟨answer, ih alike kept kept' ordered.2⟩

theorem Alike.refl (clock : Rat) (limiter : RateLimiter Client) : Alike clock limiter limiter :=
  alike_of_global rfl fun _ _ _ => rfl

end Alike

section Denied

variable {config : RateLimitConfig} {limiter : RateLimiter Client} {clock now : Rat} {global : TokenBucket}

/-- A client that denies a request keeps its balance. -/
theorem Used.denied_alike (used : Used config clock limiter) (sound : Sound config) (beyond : clock ≤ now)
    {client : Client} (short : (limiter.balance client now).tokens < 1) :
    Alike now (limiter.consumeClient client (.once now)).2 limiter := by
  obtain ⟨_, _, same, balances⟩ := used.consumeClient sound beyond client
  refine alike_of_global same fun other later further => ?_
  rw [balances other later further]
  by_cases own : other = client
  · rw [if_pos own, spend, if_neg (not_le.mpr short), own]
    exact used.refill_balance sound beyond further client
  · rw [if_neg own]

/-- A global bucket that is short of a token was short of it before the refill. -/
theorem Used.global_short (used : Used config clock limiter)
    (found : limiter.global = some global) (short : (global.refill now).tokens < 1) : global.tokens < 1 := by
  obtain ⟨rps, _, rate, capacity, most, past⟩ := used.global global found
  by_cases nonneg : 0 ≤ rps
  · apply lt_of_le_of_lt _ short
    apply le_min
    · rw [rate, durationSince]
      exact le_add_of_nonneg_right (mul_nonneg nonneg (le_max_right _ _))
    · rw [capacity]
      exact most
  · linarith

theorem check_short (client : Client) (found : limiter.global = some global) (short : global.tokens < 1) :
    (limiter.check client now).1 = denial global := by
  rw [check, checkGlobal, found]
  simp only [if_pos short]
  rfl

theorem Used.check_enough (used : Used config clock limiter) (sound : Sound config) (client : Client)
    (enough : ∀ global, limiter.global = some global → 1 ≤ global.tokens) :
    (limiter.check client now).1 = verdict (limiter.balance client now) := by
  have peek : limiter.checkGlobal = .allow := by
    rw [checkGlobal]
    cases found : limiter.global with
    | none => rfl
    | some global => exact if_neg (not_lt.mpr (enough global found))
  rw [check, peek]
  exact used.checkClient_fst sound client

theorem verdict_eq_allow {bucket : TokenBucket} : verdict bucket = .allow ↔ 1 ≤ bucket.tokens := by
  rw [verdict]
  by_cases short : bucket.tokens < 1
  · rw [if_pos short]
    exact iff_of_false (denial_ne_allow bucket) (not_le.mpr short)
  · rw [if_neg short]
    exact iff_of_true rfl (not_lt.mp short)

/-- A bucket that was refilled just now is refilled. -/
theorem refill_charge (bucket : TokenBucket) (now : Rat) :
    ((charge (bucket.refill now)).refill now).tokens = (bucket.refill now).tokens - 1 := by
  have most := bucket.refill_tokens_le now
  change min ((bucket.refill now).tokens - 1 + bucket.refillRate * durationSince now now) bucket.capacity = _
  rw [durationSince, sub_self, max_self, mul_zero, add_zero]
  exact min_eq_left (by linarith)

variable (used : Used config clock limiter)
include used

/-- As many clients are served at one instant as the global bucket has tokens. -/
theorem Used.answers_fresh (sound : Sound config) (beyond : clock ≤ now) (found : limiter.global = some global)
    {clients : List Client} (distinct : clients.Nodup)
    (full : ∀ client ∈ clients, 1 ≤ (limiter.balance client now).tokens) :
    answers limiter (clients.map fun client => (now, .checkAndConsume client)) =
        List.replicate clients.length (some .allow) ↔ (clients.length : Rat) ≤ max (global.refill now).tokens 0 := by
  induction clients generalizing limiter global clock with
  | nil => simp [answers]
  | cons client clients ih =>
      rw [map_cons, length_cons, replicate_succ]
      change some (limiter.checkAndConsume client now).1 :: answers (limiter.checkAndConsume client now).2 _ = _ ↔ _
      have some : (0 : Rat) ≤ clients.length := Nat.cast_nonneg _
      rw [List.cons.injEq, Option.some.injEq, Nat.cast_succ]
      by_cases short : (global.refill now).tokens < 1
      · rw [checkAndConsume_denied client found short]
        refine iff_of_false (fun both => denial_ne_allow _ both.1) (not_le.mpr ?_)
        exact max_lt (by linarith) (by linarith)
      · have enough := not_lt.mp short
        have kept := used.chargeGlobal beyond found
        obtain ⟨answer, kept', same, balances⟩ := kept.consumeClient sound (le_refl now) client
        obtain ⟨once, distinct⟩ := nodup_cons.mp distinct
        have rest := ih kept' (le_refl now) same distinct (by
          intro other member
          have apart : other ≠ client := by
            intro own
            rw [own] at member
            exact once member
          rw [balances other now (le_refl now), if_neg apart]
          exact full other (mem_cons_of_mem _ member))
        rw [checkAndConsume_passed client found enough, answer, rest, refill_charge]
        have allowed : verdict (RateLimiter.balance { limiter with global := Option.some (charge (global.refill now)) }
            client now) = .allow := verdict_eq_allow.mpr (full client mem_cons_self)
        rw [and_iff_right allowed, max_eq_left (by linarith), max_eq_left (by linarith), le_sub_iff_add_le]

/-- A token that the global bucket has lost shows as soon as enough other clients make requests. -/
theorem Used.traced [Infinite Client] (sound : Sound config) (beyond : clock ≤ now)
    (found : limiter.global = some global) (enough : 1 ≤ (global.refill now).tokens) (client : Client) :
    ∃ calls, Ordered now calls ∧ answers (limiter.checkAndConsume client now).2 calls ≠ answers limiter calls := by
  let count := ⌊(global.refill now).tokens⌋₊
  have nonneg : 0 ≤ (global.refill now).tokens := by linarith
  have below : (count : Rat) ≤ (global.refill now).tokens := Nat.floor_le nonneg
  have above : (global.refill now).tokens < count + 1 := Nat.lt_floor_add_one _
  have some : (1 : Rat) ≤ count := by exact_mod_cast Nat.le_floor (by exact_mod_cast enough)
  have infinite : (Set.Infinite {other : Client | other ∉ client :: limiter.clients.keys}) :=
    (finite_toSet _).infinite_compl
  obtain ⟨chosen, apart, size⟩ := infinite.exists_subset_card_eq count
  have fresh (other : Client) (member : other ∈ chosen.toList) :
      other ≠ client ∧ limiter.clients.lookup other = none := by
    have outside := apart (Finset.mem_toList.mp member)
    rw [Set.mem_ofPred_eq, mem_cons, not_or] at outside
    exact ⟨outside.1, AList.lookup_eq_none.mpr outside.2⟩
  have full (other : Client) (member : other ∈ chosen.toList) : 1 ≤ (limiter.balance other now).tokens := by
    rw [balance_none (fresh other member).2, used.settings]
    exact sound.burst
  have distinct := chosen.nodup_toList
  have length : (chosen.toList.length : Rat) = count := by rw [Finset.length_toList, size]
  have kept := used.chargeGlobal beyond found
  obtain ⟨_, kept', same, balances⟩ := kept.consumeClient sound (le_refl now) client
  have before := used.answers_fresh sound beyond found distinct full
  have behind := kept'.answers_fresh sound (le_refl now) same distinct (by
    intro other member
    rw [balances other now (le_refl now), if_neg (fresh other member).1]
    exact full other member)
  rw [length] at before behind
  rw [refill_charge] at behind
  refine ⟨chosen.toList.map fun other => (now, .checkAndConsume other), ?_, fun equal => ?_⟩
  · have ordered (others : List Client) : Ordered now (others.map fun other => (now, .checkAndConsume other)) := by
      induction others with
      | nil => trivial
      | cons other others ih => exact ⟨le_refl now, ih⟩
    exact ordered _
  · rw [checkAndConsume_passed client found enough, before.mpr (below.trans (le_max_left _ _))] at equal
    rcases le_max_iff.mp (behind.mp equal) with fits | none
    · linarith
    · linarith

/-- A request costs nothing exactly if the global bucket settles it. -/
theorem Used.costsNothing_iff [Infinite Client] (sound : Sound config) (beyond : clock ≤ now) (client : Client) :
    CostsNothing limiter client now ↔ Settled limiter client now := by
  cases found : limiter.global with
  | none =>
      refine iff_of_true ⟨?_, fun denied calls ordered => ?_⟩ fun global other => ?_
      · rw [used.check_enough sound client (by rw [found]; nofun), checkAndConsume_none client found,
          (used.consumeClient sound beyond client).1]
      · rw [checkAndConsume_none client found] at denied ⊢
        obtain ⟨answer, kept, _⟩ := used.consumeClient sound beyond client
        rw [answer, ne_eq, verdict_eq_allow, not_le] at denied
        exact (used.denied_alike sound beyond denied).answers sound kept (used.wait beyond) calls ordered
      · rw [found] at other
        cases other
  | some global =>
      have settled : Settled limiter client now ↔
          if (global.refill now).tokens < 1 then denial global = denial (global.refill now)
          else 1 ≤ global.tokens ∧ 1 ≤ (limiter.balance client now).tokens := by
        rw [Settled, found]
        simp only [Option.some.injEq, forall_eq']
      rw [settled]
      by_cases short : (global.refill now).tokens < 1
      · rw [if_pos short]
        have before := used.global_short found short
        have denied := checkAndConsume_denied client found short
        constructor
        · intro nothing
          have same := nothing.traceless (by rw [denied]; exact denial_ne_allow _) [(now, .check client)]
            ⟨le_refl now, True.intro⟩
          have first := (List.cons.inj same).1
          rw [denied] at first
          have first : some (check { limiter with global := some (global.refill now) } client now).1 =
            some (limiter.check client now).1 := first
          rw [check_short client rfl short, check_short client found before, Option.some.injEq] at first
          exact first.symm
        · intro same
          refine ⟨iff_of_false ?_ ?_, fun _ calls ordered => ?_⟩
          · rw [check_short client found before]
            exact denial_ne_allow _
          · rw [denied]
            exact denial_ne_allow _
          · rw [denied]
            obtain ⟨rps, _, rate, capacity, most, past⟩ := used.global global found
            have alike : Alike now { limiter with global := some (global.refill now) } limiter := by
              refine ⟨?_, fun later further => ?_, fun _ _ _ => rfl⟩
              · rw [checkGlobal, checkGlobal, found]
                simp only [if_pos short, if_pos before, same]
              · rw [found]
                exact congrArg some (refill_twice (capacity ▸ most) (past.trans beyond) further)
            exact alike.answers sound (used.refillGlobal beyond found) (used.wait beyond) calls ordered
      · rw [if_neg short]
        have enough := not_lt.mp short
        have kept := used.chargeGlobal beyond found
        obtain ⟨answer, _⟩ := kept.consumeClient sound (le_refl now) client
        have passed := checkAndConsume_passed client found enough
        by_cases allowed : 1 ≤ (limiter.balance client now).tokens
        · have consumed : (limiter.checkAndConsume client now).1 = .allow := by
            rw [passed, answer]
            exact verdict_eq_allow.mpr allowed
          rw [and_iff_left allowed]
          constructor
          · intro nothing
            by_contra peek
            have checked := nothing.agrees.mpr consumed
            rw [check_short client found (not_le.mp peek)] at checked
            exact denial_ne_allow _ checked
          · intro peek
            refine ⟨iff_of_true ?_ consumed, fun denied => absurd consumed denied⟩
            rw [used.check_enough sound client (by rw [found]; intro other same; rwa [← Option.some.inj same])]
            exact verdict_eq_allow.mpr allowed
        · refine iff_of_false (fun nothing => ?_) fun both => allowed both.2
          obtain ⟨calls, ordered, differ⟩ := used.traced sound beyond found enough client
          refine differ (nothing.traceless ?_ calls ordered)
          rw [passed, answer, ne_eq, verdict_eq_allow]
          exact allowed

end Denied

section Reached

variable {config : RateLimitConfig}

theorem new_used (config : RateLimitConfig) (start : Rat) : Used config start (new Client config start) where
  settings := rfl
  clients client entry found := by cases found
  global global found := by
    obtain ⟨rps, limit, same⟩ := Option.map_eq_some_iff.mp found
    rw [← same]
    exact ⟨rps, limit, rfl, rfl, le_refl _, le_refl _⟩

theorem Used.after {limiter : RateLimiter Client} {clock : Rat} (used : Used config clock limiter)
    (sound : Sound config) {calls : List (Rat × LimiterCall Client)} (ordered : Ordered clock calls) :
    Used config (lastInstant clock calls) (limiter.after calls) := by
  induction calls generalizing limiter clock with
  | nil => exact used
  | cons timed calls ih =>
      obtain ⟨now, call⟩ := timed
      exact ih ((Alike.refl clock limiter).respond sound used used ordered.1 call).2.1 ordered.2

/-- In every reachable state a request costs nothing if and only if the global bucket settles it. -/
theorem reached_costsNothing_iff [Infinite Client] (sound : Sound config) {start now : Rat}
    {history : List (Rat × LimiterCall Client)} (ordered : Ordered start history) (client : Client)
    (later : lastInstant start history ≤ now) : CostsNothing ((new Client config start).after history) client now ↔
      Settled ((new Client config start).after history) client now :=
  ((new_used config start).after sound ordered).costsNothing_iff sound later client

/-- A client with one token shares a global bucket of two. -/
def sharedConfig : RateLimitConfig := ⟨1, 1, 10, 300, some 1⟩

theorem reached_costsNothing_shared : CostsNothing ((new Nat sharedConfig 0).after [(0, .checkAndConsume 0)]) 0 1 ↔
      Settled ((new Nat sharedConfig 0).after [(0, .checkAndConsume 0)]) 0 1 :=
  have ordered : Ordered 0 [(0, LimiterCall.checkAndConsume 0)] := ⟨le_refl 0, True.intro⟩
  reached_costsNothing_iff ⟨by decide, by decide, by decide +kernel⟩ ordered 0 (by decide)

/-- A denied client takes the last global token from another client, and a check does not see that it comes back. -/
theorem denied_request_costs : ¬ CostsNothing ((new Nat sharedConfig 0).after [(0, .checkAndConsume 0)]) 0 0 ∧
      ¬ CostsNothing ((new Nat sharedConfig 0).after [(0, .checkAndConsume 0), (0, .checkAndConsume 1)]) 2 1 := by
  constructor
  · intro nothing
    have same := nothing.traceless (by decide +kernel) [(0, .checkAndConsume 1)] ⟨le_refl 0, True.intro⟩
    exact absurd same (by decide +kernel)
  · intro nothing
    have checked := nothing.agrees.mpr (by decide +kernel)
    exact absurd checked (by decide +kernel)

end Reached

end Pictor.RateLimiter
