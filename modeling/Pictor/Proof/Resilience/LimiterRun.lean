import Pictor.Construction.Resilience.RateLimiter
import Pictor.Library.Metered
import Pictor.Library.Transitions

namespace Pictor

namespace TokenBucket

variable {bucket : TokenBucket} {capacity rate clock now later : Rat} {instants : List Rat}

theorem refill_refill (nonneg : 0 ≤ bucket.refillRate) (past : bucket.lastRefill ≤ now) (beyond : now ≤ later) :
    (bucket.refill now).refill later = bucket.refill later := by
  have gained := mul_nonneg nonneg (sub_nonneg.mpr beyond)
  have split : bucket.refillRate * (later - bucket.lastRefill) =
      bucket.refillRate * (now - bucket.lastRefill) + bucket.refillRate * (later - now) := by ring
  simp only [refill, durationSince, max_eq_left (sub_nonneg.mpr past), max_eq_left (sub_nonneg.mpr beyond),
    max_eq_left (sub_nonneg.mpr (past.trans beyond)), TokenBucket.mk.injEq, and_true]
  rw [← min_add_add_right, min_assoc, min_eq_right (le_add_of_nonneg_right gained), split, add_assoc]

theorem refill_tokens_le (bucket : TokenBucket) (now : Rat) : (bucket.refill now).tokens ≤ bucket.capacity :=
  min_le_right _ _

/-- The tokens of a bucket rise at most at its rate. -/
theorem refill_gain (beyond : now ≤ later) :
    ((bucket.refill now).refill later).tokens ≤ (bucket.refill now).tokens + bucket.refillRate * (later - now) := by
  rw [refill, durationSince]
  change min (_ + _ * max (later - now) 0) _ ≤ _
  rw [max_eq_left (sub_nonneg.mpr beyond)]
  exact min_le_left _ _

/-- The bucket meters the instants with its capacity and its rate. -/
structure Measures (bucket : TokenBucket) (capacity rate : Rat) (instants : List Rat) (clock : Rat) : Prop where
  holds : bucket.capacity = capacity
  fills : bucket.refillRate = rate
  past : bucket.lastRefill ≤ clock
  metered : Metered capacity rate instants (bucket.refill clock).tokens clock

namespace Measures

theorem wait (measures : bucket.Measures capacity rate instants clock) (nonneg : 0 ≤ rate) (beyond : clock ≤ later) :
    bucket.Measures capacity rate instants later where
  holds := measures.holds
  fills := measures.fills
  past := measures.past.trans beyond
  metered := by
    have refilled := @refill_refill bucket clock later (by rwa [measures.fills]) measures.past beyond
    have gained := @refill_gain bucket clock later beyond
    rw [refilled, measures.fills] at gained
    apply measures.metered.wait nonneg beyond gained
    rw [← measures.holds]
    exact bucket.refill_tokens_le later

theorem refill (measures : bucket.Measures capacity rate instants clock) (nonneg : 0 ≤ rate) :
    (bucket.refill clock).Measures capacity rate instants clock where
  holds := measures.holds
  fills := measures.fills
  past := le_refl _
  metered := by
    rw [refill_refill (by rwa [measures.fills]) measures.past (le_refl _)]
    exact measures.metered

/-- A fresh bucket meters what a full meter does. -/
theorem fresh (metered : Metered capacity rate instants capacity clock) (nonneg : 0 ≤ rate) :
    (new capacity rate clock).Measures capacity rate instants clock where
  holds := rfl
  fills := rfl
  past := le_refl _
  metered := by
    apply metered.wait nonneg (le_refl _)
    · rw [sub_self, mul_zero, add_zero]
      exact refill_tokens_le _ _
    · exact refill_tokens_le _ _

theorem tryConsume (measures : bucket.Measures capacity rate instants clock) (nonneg : 0 ≤ rate) :
    (bucket.tryConsume 1 clock).2.Measures capacity rate
      (if (bucket.tryConsume 1 clock).1 then instants ++ [clock] else instants) clock := by
  rw [TokenBucket.tryConsume]
  by_cases enough : 1 ≤ (bucket.refill clock).tokens
  · simp only [enough, if_true]
    have taken := measures.metered.take nonneg enough
    refine ⟨measures.holds, measures.fills, le_refl _, taken.wait nonneg (le_refl _) ?_ ?_⟩
    · rw [TokenBucket.refill, durationSince]
      simp only [TokenBucket.refill, sub_self, max_self, mul_zero, add_zero]
      exact min_le_left _ _
    · rw [← measures.holds]
      exact refill_tokens_le _ _
  · simp only [enough, if_false, Bool.false_eq_true]
    exact measures.refill nonneg

/-- The bucket of a client is full by an instant. -/
theorem full (measures : bucket.Measures capacity rate instants clock)
    (full : bucket.capacity ≤ (bucket.refill clock).tokens) : Metered capacity rate instants capacity clock := by
  have same : (bucket.refill clock).tokens = capacity := by
    rw [← measures.holds]
    exact le_antisymm (bucket.refill_tokens_le clock) full
  have metered := measures.metered
  rwa [same] at metered

end Measures

end TokenBucket

namespace RateLimiter
open Transitions

variable {Client : Type} [DecidableEq Client]

/-- A check or a request that has passed its first part, with the instant at which the request did. -/
inductive Call (Client : Type) where
  | check (client : Client)
  | consume (client : Client) (taken : Rat)

def Call.taken? : Call Client → Option Rat
  | .check _ => none
  | .consume _ taken => some taken

/-- A request that was allowed, with the instants at which it passed the global bucket and the one of its client. -/
structure Request (Client : Type) where
  client : Client
  taken : Rat
  admitted : Rat

/-- The steps of the calls. The parts of one call may be far apart. -/
inductive Event (Client : Type) where
  | check (client : Client)
  | checkRest (place : Nat) (now : Rat)
  | consume (client : Client) (now : Rat)
  | consumeRest (place : Nat) (readings : Readings)
  | evictStale (now : Rat)

/-- The limiter, the last reading of the clock, the calls between their parts, and the requests that were allowed. -/
structure Served (Client : Type) where
  limiter : RateLimiter Client
  clock : Rat
  calls : List (Call Client)
  allowed : List (Request Client)

namespace Served

def start (Client : Type) (config : RateLimitConfig) (now : Rat) : Served Client := ⟨.new Client config now, now, [], []⟩

/-- The clock does not go back, except that a call to evict may read it before it waits for the clients. -/
def step (served : Served Client) : Event Client → Option (Served Client)
  | .check client => some
      { served with calls :=
        if served.limiter.checkGlobal = .allow then served.calls ++ [.check client] else served.calls }
  | .checkRest place now =>
      match served.calls[place]? with
      | some (.check client) =>
          if served.clock ≤ now then some
            { served with
              limiter := (served.limiter.checkClient client now).2
              clock := now
              calls := served.calls.eraseIdx place }
          else none
      | _ => none
  | .consume client now =>
      if served.clock ≤ now then
        let (decision, limiter) := served.limiter.consumeGlobal now
        some
          { served with
            limiter
            clock := now
            calls := if decision = .allow then served.calls ++ [.consume client now] else served.calls }
      else none
  | .consumeRest place readings =>
      match served.calls[place]? with
      | some (.consume client taken) =>
          if served.clock ≤ readings.evicted ∧ readings.evicted ≤ readings.created ∧
              readings.created ≤ readings.seen ∧ readings.seen ≤ readings.refilled then
            let (decision, limiter) := served.limiter.consumeClient client readings
            some
              { limiter
                clock := readings.refilled
                calls := served.calls.eraseIdx place
                allowed := if decision = .allow then served.allowed ++ [⟨client, taken, readings.refilled⟩]
                  else served.allowed }
          else none
      | _ => none
  | .evictStale now => some
      { served with limiter := served.limiter.evictStale now, clock := max served.clock now }

/-- The instants at which the requests of a client were allowed. -/
def admissions (served : Served Client) (client : Client) : List Rat :=
  (served.allowed.filter fun request => request.client = client).map Request.admitted

/-- The instants at which the requests that were allowed passed the global bucket. -/
def takings (served : Served Client) : List Rat := served.allowed.map Request.taken

/-- The limits of the configuration hold over every window of time. -/
structure Limited (config : RateLimitConfig) (served : Served Client) : Prop where
  clients : ∀ client start stop, start ≤ stop →
    (within start stop (served.admissions client) : Rat) ≤ config.burst + config.rps * (stop - start)
  global : ∀ rps, config.globalRps = some rps → ∀ start stop, start ≤ stop →
    (within start stop served.takings : Rat) ≤ 2 * rps + rps * (stop - start)
  tracked : served.limiter.clients.entries.length ≤ max config.maxClients 1

/-- The clients that an eviction removes have full buckets by an instant. -/
def HarmlessEviction (limiter : RateLimiter Client) (now instant : Rat) : Prop :=
  ∀ entry ∈ limiter.clients.entries, limiter.active now entry.2 = false →
    entry.2.1.capacity ≤ (entry.2.1.refill instant).tokens

/-- The client is active, or fewer clients are than may be tracked. -/
def Room (limiter : RateLimiter Client) (client : Client) (now : Rat) : Prop :=
  (limiter.clients.lookup client).any (limiter.active now) = true ∨
    limiter.clients.entries.countP (fun entry => limiter.active now entry.2) < max limiter.config.maxClients 1

/-- An eviction removes clients with full buckets only, and a request at capacity finds room for its client. -/
def Guarded (served : Served Client) : Event Client → Prop
  | .consumeRest place readings =>
      match served.calls[place]? with
      | some (.consume client _) =>
          served.limiter.config.maxClients ≤ served.limiter.clients.entries.length →
            HarmlessEviction served.limiter readings.evicted readings.evicted ∧
              Room served.limiter client readings.evicted
      | _ => True
  | .evictStale now => HarmlessEviction served.limiter now (max served.clock now)
  | _ => True

instance (limiter : RateLimiter Client) (now instant : Rat) : Decidable (HarmlessEviction limiter now instant) :=
  inferInstanceAs (Decidable (∀ entry ∈ limiter.clients.entries, _))

instance (limiter : RateLimiter Client) (client : Client) (now : Rat) : Decidable (Room limiter client now) :=
  inferInstanceAs (Decidable (_ ∨ _))

instance (served : Served Client) : ∀ event, Decidable (Guarded served event)
  | .check _ | .checkRest _ _ | .consume _ _ => isTrue True.intro
  | .consumeRest place readings =>
      match found : served.calls[place]? with
      | some (.consume client _) => decidable_of_iff
          (served.limiter.config.maxClients ≤ served.limiter.clients.entries.length →
            HarmlessEviction served.limiter readings.evicted readings.evicted ∧
              Room served.limiter client readings.evicted) (by rw [Guarded, found])
      | some (.check _) => isTrue (by rw [Guarded, found]; exact True.intro)
      | none => isTrue (by rw [Guarded, found]; exact True.intro)
  | .evictStale now => inferInstanceAs (Decidable (HarmlessEviction served.limiter now (max served.clock now)))

end Served

end RateLimiter

end Pictor

namespace Pictor.RateLimiter
open Transitions List

variable {Client : Type} [DecidableEq Client] {limiter : RateLimiter Client} {config : RateLimitConfig}
  {client other : Client} {clock now later : Rat} {instants : List Rat} {readings : Readings}

/-- The bucket of a client meters its instants, or the client has no bucket and spares a full one. -/
def MetersClient (limiter : RateLimiter Client) (client : Client) (instants : List Rat) (clock : Rat) : Prop :=
  match limiter.clients.lookup client with
  | some (bucket, _) => bucket.Measures limiter.config.burst limiter.config.rps instants clock
  | none => Metered limiter.config.burst limiter.config.rps instants limiter.config.burst clock

theorem MetersClient.wait (meters : MetersClient limiter client instants clock) (nonneg : 0 ≤ limiter.config.rps)
    (beyond : clock ≤ later) : MetersClient limiter client instants later := by
  rw [MetersClient] at meters ⊢
  cases found : limiter.clients.lookup client with
  | some entry =>
      rw [found] at meters
      exact meters.wait nonneg beyond
  | none =>
      rw [found] at meters
      apply meters.wait nonneg beyond _ (le_refl _)
      exact le_add_of_nonneg_right (mul_nonneg nonneg (sub_nonneg.mpr beyond))

theorem lookup_evictStale (limiter : RateLimiter Client) (client : Client) (now : Rat) :
    (limiter.evictStale now).clients.lookup client = (limiter.clients.lookup client).filter (limiter.active now) := by
  apply Option.ext
  intro entry
  have kept := @AList.mem_lookup_iff _ _ _ client entry (limiter.evictStale now).clients
  have tracked := @AList.mem_lookup_iff _ _ _ client entry limiter.clients
  rw [Option.mem_def] at kept tracked
  rw [kept, Option.filter_eq_some_iff, tracked]
  exact mem_filter

/-- A harmless eviction leaves every client metered. -/
theorem MetersClient.evictStale (meters : MetersClient limiter client instants clock)
    (harmless : Served.HarmlessEviction limiter now clock) :
    MetersClient (limiter.evictStale now) client instants clock := by
  rw [MetersClient] at meters ⊢
  rw [lookup_evictStale]
  cases found : limiter.clients.lookup client with
  | none =>
      rw [found] at meters
      exact meters
  | some entry =>
      rw [found] at meters
      cases active : limiter.active now entry with
      | true =>
          rw [Option.filter_some_pos active]
          exact meters
      | false =>
          have inside := AList.mem_lookup_iff.mp found
          have measures : entry.1.Measures limiter.config.burst limiter.config.rps instants clock := meters
          rw [Option.filter_some_neg active]
          exact measures.full (harmless ⟨client, entry⟩ inside active)

theorem MetersClient.insert_same {bucket : TokenBucket} {seen : Rat}
    (measures : bucket.Measures limiter.config.burst limiter.config.rps instants clock) :
    MetersClient { limiter with clients := limiter.clients.insert client (bucket, seen) } client instants clock := by
  rw [MetersClient, AList.lookup_insert]
  exact measures

theorem metersClient_insert_other (entry : TokenBucket × Rat) (apart : other ≠ client) :
    MetersClient { limiter with clients := limiter.clients.insert client entry } other instants clock ↔
      MetersClient limiter other instants clock := by
  rw [MetersClient, MetersClient, AList.lookup_insert_ne apart]

theorem length_insert (clients : AList fun _ : Client => TokenBucket × Rat) (entry : TokenBucket × Rat) :
    (clients.insert client entry).entries.length =
      if client ∈ clients then clients.entries.length else clients.entries.length + 1 := by
  have keys : ∀ clients : AList fun _ : Client => TokenBucket × Rat, clients.keys.length = clients.entries.length :=
    fun clients => length_map _
  rw [← keys, ← keys, AList.keys_insert, length_cons]
  by_cases tracked : client ∈ clients
  · have inside := AList.mem_keys.mp tracked
    have positive := length_pos_of_mem inside
    rw [if_pos tracked, length_erase_of_mem inside]
    omega
  · rw [if_neg tracked, erase_of_not_mem (fun inside => tracked (AList.mem_keys.mpr inside))]

/-- A request that finds room keeps the number of tracked clients in its bound. -/
theorem room_tracked (room : Served.Room limiter client now) (entry : TokenBucket × Rat)
    (bounded : limiter.clients.entries.length ≤ max limiter.config.maxClients 1) :
    ((limiter.evictStale now).clients.insert client entry).entries.length ≤ max limiter.config.maxClients 1 := by
  have fewer : (limiter.evictStale now).clients.entries.length ≤ limiter.clients.entries.length :=
    length_filter_le _ _
  have counted : (limiter.evictStale now).clients.entries.length =
      limiter.clients.entries.countP fun entry => limiter.active now entry.2 := countP_eq_length_filter.symm
  rw [length_insert]
  rcases room with tracked | few
  · obtain ⟨found, tracked, active⟩ := (Option.any_eq_true _ _).mp tracked
    have kept : (limiter.evictStale now).clients.lookup client = some found := by
      rw [lookup_evictStale, tracked, Option.filter_some_pos active]
    rw [if_pos (AList.lookup_isSome.mp (by rw [kept]; rfl))]
    omega
  · split
    · omega
    · omega

/-- The client part of a check keeps every client metered. -/
theorem MetersClient.checkClient (meters : MetersClient limiter other instants clock)
    (nonneg : 0 ≤ limiter.config.rps) : MetersClient (limiter.checkClient client clock).2 other instants clock := by
  rw [RateLimiter.checkClient]
  cases found : limiter.clients.lookup client with
  | none => exact meters
  | some entry =>
      by_cases same : other = client
      · rw [MetersClient, same, found] at meters
        rw [same]
        exact MetersClient.insert_same (meters.refill nonneg)
      · exact (metersClient_insert_other _ same).mpr meters

theorem checkClient_length (limiter : RateLimiter Client) (client : Client) (now : Rat) :
    (limiter.checkClient client now).2.clients.entries.length = limiter.clients.entries.length := by
  rw [checkClient]
  cases found : limiter.clients.lookup client with
  | none => rfl
  | some entry =>
      dsimp only
      rw [length_insert, if_pos (AList.lookup_isSome.mp (by rw [found]; rfl))]

/-- The bucket that a request gets meters the instants of its client. -/
theorem MetersClient.bucketOrNew (meters : MetersClient limiter client instants clock)
    (nonneg : 0 ≤ limiter.config.rps) (created : clock ≤ now) (refilled : now ≤ later) :
    (limiter.bucketOrNew client now).Measures limiter.config.burst limiter.config.rps instants later := by
  have meters := meters.wait nonneg created
  rw [MetersClient] at meters
  rw [RateLimiter.bucketOrNew]
  cases found : limiter.clients.lookup client with
  | some entry =>
      rw [found] at meters
      exact meters.wait nonneg refilled
  | none =>
      rw [found] at meters
      exact (TokenBucket.Measures.fresh meters nonneg).wait nonneg refilled

omit [DecidableEq Client] in
theorem makeRoom_config (limiter : RateLimiter Client) (now : Rat) : (limiter.makeRoom now).config = limiter.config := by
  rw [makeRoom]
  split
  · rfl
  · rfl

omit [DecidableEq Client] in
theorem makeRoom_global (limiter : RateLimiter Client) (now : Rat) : (limiter.makeRoom now).global = limiter.global := by
  rw [makeRoom]
  split
  · rfl
  · rfl

theorem MetersClient.makeRoom (meters : MetersClient limiter client instants clock)
    (harmless : limiter.config.maxClients ≤ limiter.clients.entries.length →
      Served.HarmlessEviction limiter now clock) :
    MetersClient (limiter.makeRoom now) client instants clock := by
  rw [RateLimiter.makeRoom]
  split
  case isTrue crowded => exact meters.evictStale (harmless crowded)
  case isFalse => exact meters

theorem denial_ne_allow (bucket : TokenBucket) : denial bucket ≠ .allow := fun impossible => (nomatch impossible)

theorem allow_iff (consumed : Bool) (bucket : TokenBucket) :
    (if consumed then RateLimitDecision.allow else denial bucket) = .allow ↔ consumed = true := by
  cases consumed with
  | true => simp
  | false => simp [denial_ne_allow]

/-- A request counts for its client if it is allowed, and other clients keep their buckets. -/
theorem MetersClient.consumeClient (meters : MetersClient limiter other instants readings.evicted)
    (nonneg : 0 ≤ limiter.config.rps) (created : readings.evicted ≤ readings.created)
    (refilled : readings.created ≤ readings.refilled)
    (harmless : limiter.config.maxClients ≤ limiter.clients.entries.length →
      Served.HarmlessEviction limiter readings.evicted readings.evicted) :
    MetersClient (limiter.consumeClient client readings).2 other
      (if other = client ∧ (limiter.consumeClient client readings).1 = .allow then instants ++ [readings.refilled]
        else instants) readings.refilled := by
  have roomy := meters.makeRoom harmless
  rw [← makeRoom_config limiter readings.evicted] at nonneg
  rw [RateLimiter.consumeClient]
  simp only [allow_iff]
  by_cases same : other = client
  · rw [same] at roomy
    have measures := (roomy.bucketOrNew nonneg created refilled).tryConsume nonneg
    simp only [same, true_and]
    exact insert_same measures
  · rw [if_neg fun both => same both.1]
    exact (metersClient_insert_other _ same).mpr (roomy.wait nonneg (created.trans refilled))

/-- A request at capacity that finds room keeps the number of tracked clients in its bound. -/
theorem consumeClient_tracked
    (room : limiter.config.maxClients ≤ limiter.clients.entries.length →
      Served.Room limiter client readings.evicted)
    (bounded : limiter.clients.entries.length ≤ max limiter.config.maxClients 1) :
    (limiter.consumeClient client readings).2.clients.entries.length ≤ max limiter.config.maxClients 1 := by
  rw [consumeClient, makeRoom]
  by_cases crowded : limiter.config.maxClients ≤ limiter.clients.entries.length
  · rw [if_pos crowded]
    exact room_tracked (room crowded) _ bounded
  · rw [if_neg crowded]
    dsimp only
    rw [length_insert]
    split
    · exact bounded
    · omega

namespace Served

/-- The buckets of the clients and of all of them together meter the requests that were allowed. -/
structure Keeps (config : RateLimitConfig) (served : Served Client) : Prop where
  configured : served.limiter.config = config
  clients : ∀ client, MetersClient served.limiter client (served.admissions client) served.clock
  global : ∀ rps, config.globalRps = some rps → ∃ bucket takings, served.limiter.global = some bucket ∧
    bucket.Measures (rps * 2) rps takings served.clock ∧
    (served.takings ++ served.calls.filterMap Call.taken?).Subperm takings
  tracked : served.limiter.clients.entries.length ≤ max config.maxClients 1

variable {served next : Served Client}

theorem Keeps.limited (keeps : Keeps config served) : Limited config served where
  clients client start stop before := by
    have meters := keeps.clients client
    rw [MetersClient, keeps.configured] at meters
    cases found : served.limiter.clients.lookup client with
    | some entry =>
        rw [found] at meters
        exact meters.metered.window start stop before
    | none =>
        rw [found] at meters
        exact meters.window start stop before
  global rps limited start stop before := by
    obtain ⟨bucket, takings, _, measures, counted⟩ := keeps.global rps limited
    have window := measures.metered.window start stop before
    have passed := ((sublist_append_left served.takings _).subperm.trans counted).countP_le
      fun instant => start ≤ instant ∧ instant ≤ stop
    have fewer : (within start stop served.takings : Rat) ≤ within start stop takings := Nat.cast_le.mpr passed
    rw [mul_comm rps 2] at window
    exact fewer.trans window
  tracked := keeps.tracked

/-- The global bucket only waits for its next request. -/
theorem Keeps.globalLater (keeps : Keeps config served) (sensible : ∀ rps, config.globalRps = some rps → 0 ≤ rps)
    (beyond : served.clock ≤ later) {rps : Rat} (limited : config.globalRps = some rps) :
    ∃ bucket takings, served.limiter.global = some bucket ∧ bucket.Measures (rps * 2) rps takings later ∧
      (served.takings ++ served.calls.filterMap Call.taken?).Subperm takings := by
  obtain ⟨bucket, takings, found, measures, counted⟩ := keeps.global rps limited
  exact ⟨bucket, takings, found, measures.wait (sensible rps limited) beyond, counted⟩

omit [DecidableEq Client] in
theorem takens_eraseIdx (calls : List (Call Client)) (place : Nat) :
    ((calls.eraseIdx place).filterMap Call.taken?).Sublist (calls.filterMap Call.taken?) :=
  (eraseIdx_sublist calls place).filterMap _

variable {calls : List (Call Client)} {place : Nat} {taken : Rat}

omit [DecidableEq Client] in
/-- A request in progress holds its global token. -/
theorem takens_taken (found : calls[place]? = some (.consume client taken)) :
    (taken :: (calls.eraseIdx place).filterMap Call.taken?).Perm (calls.filterMap Call.taken?) := by
  obtain ⟨inside, same⟩ := List.getElem?_eq_some_iff.mp found
  have perm := (getElem_cons_eraseIdx_perm inside).filterMap Call.taken?
  rw [same] at perm
  exact perm

variable (keeps : Keeps config served)
include keeps

theorem Keeps.check (counted : calls.filterMap Call.taken? = served.calls.filterMap Call.taken?) :
    Keeps config { served with calls } where
  configured := keeps.configured
  clients := keeps.clients
  global rps limited := by
    obtain ⟨bucket, takings, found, measures, fewer⟩ := keeps.global rps limited
    rw [← counted] at fewer
    exact ⟨bucket, takings, found, measures, fewer⟩
  tracked := keeps.tracked

variable (rate : 0 < config.rps)
include rate

variable (sensible : ∀ rps, config.globalRps = some rps → 0 ≤ rps)
include sensible

theorem Keeps.checkRest (beyond : served.clock ≤ now) (place : Nat) :
    Keeps config { served with
      limiter := (served.limiter.checkClient client now).2, clock := now, calls := served.calls.eraseIdx place } where
  configured := by
    rw [checkClient]
    split
    · exact keeps.configured
    · exact keeps.configured
  clients other := by
    have nonneg : 0 ≤ served.limiter.config.rps := by
      rw [keeps.configured]
      exact rate.le
    exact ((keeps.clients other).wait nonneg beyond).checkClient nonneg
  global rps limited := by
    obtain ⟨bucket, takings, found, measures, fewer⟩ := keeps.globalLater sensible beyond limited
    refine ⟨bucket, takings, ?_, measures, ?_⟩
    · rw [← found, checkClient]
      split
      · rfl
      · rfl
    · exact ((takens_eraseIdx served.calls place).append_left _).subperm.trans fewer
  tracked := by
    rw [checkClient_length]
    exact keeps.tracked

theorem Keeps.consume (beyond : served.clock ≤ now)
    (counted : calls.filterMap Call.taken? = if (served.limiter.consumeGlobal now).1 = .allow then served.calls.filterMap Call.taken? ++ [now] else served.calls.filterMap Call.taken?) :
    Keeps config { served with limiter := (served.limiter.consumeGlobal now).2, clock := now, calls } where
  configured := by
    rw [consumeGlobal]
    split
    · exact keeps.configured
    · exact keeps.configured
  clients other := by
    have nonneg : 0 ≤ served.limiter.config.rps := by
      rw [keeps.configured]
      exact rate.le
    have meters := (keeps.clients other).wait nonneg beyond
    rw [consumeGlobal]
    split
    · exact meters
    · exact meters
  global rps limited := by
    obtain ⟨bucket, takings, found, measures, fewer⟩ := keeps.globalLater sensible beyond limited
    simp only [consumeGlobal, found, allow_iff] at counted ⊢
    refine ⟨_, _, rfl, measures.tryConsume (sensible rps limited), ?_⟩
    rw [counted]
    split
    · rw [← append_assoc]
      exact (subperm_append_right [now]).mpr fewer
    · exact fewer
  tracked := by
    rw [consumeGlobal]
    split
    · exact keeps.tracked
    · exact keeps.tracked

theorem Keeps.consumeRest (found : served.calls[place]? = some (.consume client taken))
    (beyond : served.clock ≤ readings.evicted) (created : readings.evicted ≤ readings.created)
    (refilled : readings.created ≤ readings.refilled)
    (guarded : served.limiter.config.maxClients ≤ served.limiter.clients.entries.length → HarmlessEviction served.limiter readings.evicted readings.evicted ∧ Room served.limiter client readings.evicted) :
    Keeps config
      { limiter := (served.limiter.consumeClient client readings).2
        clock := readings.refilled
        calls := served.calls.eraseIdx place
        allowed := if (served.limiter.consumeClient client readings).1 = .allow
          then served.allowed ++ [⟨client, taken, readings.refilled⟩] else served.allowed } where
  configured := (makeRoom_config served.limiter readings.evicted).trans keeps.configured
  clients other := by
    have nonneg : 0 ≤ served.limiter.config.rps := by
      rw [keeps.configured]
      exact rate.le
    have meters : MetersClient (served.limiter.consumeClient client readings).2 other _ readings.refilled :=
      ((keeps.clients other).wait nonneg beyond).consumeClient nonneg created refilled
        fun crowded => (guarded crowded).1
    convert meters using 1
    rw [admissions]
    by_cases allowed : (served.limiter.consumeClient client readings).1 = .allow
    · rw [if_pos allowed, filter_append, map_append]
      by_cases same : client = other
      · rw [filter_cons_of_pos (by simpa using same), if_pos ⟨same.symm, allowed⟩]
        rfl
      · rw [filter_cons_of_neg (by simpa using same), if_neg fun both => same both.1.symm]
        exact append_nil _
    · rw [if_neg allowed, if_neg fun both => allowed both.2]
      rfl
  global rps limited := by
    obtain ⟨bucket, takings, present, measures, fewer⟩ :=
      keeps.globalLater sensible (beyond.trans (created.trans refilled)) limited
    refine ⟨bucket, takings, (makeRoom_global served.limiter readings.evicted).trans present, measures, ?_⟩
    apply List.Subperm.trans _ fewer
    rw [Served.takings]
    dsimp only
    split
    · rw [map_append, append_assoc]
      exact ((takens_taken found).append_left _).subperm
    · exact ((takens_eraseIdx served.calls place).append_left _).subperm
  tracked := by
    have bounded := keeps.tracked
    rw [← keeps.configured] at bounded ⊢
    exact consumeClient_tracked (fun crowded => (guarded crowded).2) bounded

theorem Keeps.evictStale (harmless : HarmlessEviction served.limiter now (max served.clock now)) :
    Keeps config { served with limiter := served.limiter.evictStale now, clock := max served.clock now } where
  configured := keeps.configured
  clients other := by
    have nonneg : 0 ≤ served.limiter.config.rps := by
      rw [keeps.configured]
      exact rate.le
    exact ((keeps.clients other).wait nonneg (le_max_left _ _)).evictStale harmless
  global rps limited := keeps.globalLater sensible (le_max_left _ _) limited
  tracked := (length_filter_le _ _).trans keeps.tracked

/-- A guarded step keeps the buckets metered. -/
theorem Keeps.step {event : Event Client} (guarded : Guarded served event) (stepped : served.step event = some next) :
    Keeps config next := by
  cases event with
  | check client =>
      cases stepped
      apply keeps.check
      split
      · rw [filterMap_append]
        exact append_nil _
      · rfl
  | checkRest place now =>
      rw [Served.step] at stepped
      split at stepped
      case h_1 found =>
        split at stepped
        case isTrue beyond =>
          cases stepped
          exact keeps.checkRest rate sensible beyond place
        case isFalse => cases stepped
      case h_2 => cases stepped
  | consume client now =>
      rw [Served.step] at stepped
      split at stepped
      case isTrue beyond =>
        cases stepped
        apply keeps.consume rate sensible beyond
        change List.filterMap _ (if (served.limiter.consumeGlobal now).1 = .allow then _ else _) = _
        by_cases allowed : (served.limiter.consumeGlobal now).1 = .allow
        · rw [if_pos allowed, if_pos allowed]
          exact filterMap_append
        · rw [if_neg allowed, if_neg allowed]
      case isFalse => cases stepped
  | consumeRest place readings =>
      rw [Served.step] at stepped
      split at stepped
      case h_1 client taken found =>
        split at stepped
        case isTrue ordered =>
          cases stepped
          obtain ⟨beyond, created, seen, refilled⟩ := ordered
          rw [Guarded, found] at guarded
          exact keeps.consumeRest rate sensible found beyond created (seen.trans refilled) guarded
        case isFalse => cases stepped
      case h_2 => cases stepped
  | evictStale now =>
      cases stepped
      exact keeps.evictStale rate sensible guarded

omit keeps rate sensible

theorem keeps_start (burst : 1 ≤ config.burst) (rate : 0 < config.rps)
    (sensible : ∀ rps, config.globalRps = some rps → 0 ≤ rps) (now : Rat) :
    Keeps config (start Client config now) where
  configured := rfl
  clients _ := Metered.fresh rate.le (zero_le_one.trans burst) now
  global rps limited := by
    have nonneg := sensible rps limited
    refine ⟨.new (rps * 2) rps now, [], ?_, ?_, nil_subperm⟩
    · change config.globalRps.map _ = _
      rw [limited]
      rfl
    · exact .fresh (.fresh nonneg (mul_nonneg nonneg zero_le_two) now) nonneg
  tracked := Nat.zero_le _

/-- The limits hold in every run whose evictions remove full buckets only and whose requests find room. -/
theorem run_limited (burst : 1 ≤ config.burst) (rate : 0 < config.rps)
    (sensible : ∀ rps, config.globalRps = some rps → 0 ≤ rps) {events : List (Event Client)}
    (meets : Meets step Guarded (start Client config now) events)
    (ran : run step (start Client config now) events = some served) : Limited config served :=
  (run_conditional (fun _ _ _ keeps guarded stepped => keeps.step rate sensible guarded stepped)
    (keeps_start burst rate sensible now) meets ran).limited

def readOnce (now : Rat) : Readings := ⟨now, now, now, now⟩

/-- A request whose parts follow each other at one instant. -/
def request (client : Client) (now : Rat) : List (Event Client) := [.consume client now, .consumeRest 0 (readOnce now)]

/-- Two clients are active at once, and one may be tracked. -/
def crowdedConfig : RateLimitConfig := ⟨1, 1, 1, 300, none⟩

/-- A client is evicted long before its bucket would be full again. -/
def shortTtlConfig : RateLimitConfig := ⟨1, 5, 10, 1, none⟩

/-- A second client exceeds the number of clients, and a client that is evicted gets its burst again. -/
theorem limits_exceeded :
    (∃ served : Served Nat, run step (start Nat crowdedConfig 0) (request 1 0 ++ request 2 0) = some served ∧
      ¬Limited crowdedConfig served) ∧
    ∃ served : Served Nat, run step (start Nat shortTtlConfig 0) ((List.replicate 5 (request 1 0)).flatten ++
      [.evictStale 1] ++ (List.replicate 5 (request 1 1)).flatten) = some served ∧ ¬Limited shortTtlConfig served := by
  constructor
  · refine ⟨_, rfl, fun limited => absurd limited.tracked ?_⟩
    decide +kernel
  · have allowed : (run step (start Nat shortTtlConfig 0) ((List.replicate 5 (request 1 0)).flatten ++
        [.evictStale 1] ++ (List.replicate 5 (request 1 1)).flatten)).map (fun served =>
          within 0 1 (served.admissions 1)) = some 10 := by decide +kernel
    obtain ⟨served, ran, ten⟩ := Option.map_eq_some_iff.mp allowed
    refine ⟨served, ran, fun limited => ?_⟩
    have window := limited.clients 1 0 1 zero_le_one
    rw [ten] at window
    exact absurd window (by decide +kernel)

/-- A client that waits until its bucket is full may be evicted. -/
theorem fullBucket_limited : ∃ served : Served Nat,
    run step (start Nat crowdedConfig 0) (request 1 0 ++ [.evictStale 300] ++ request 2 300) = some served ∧
      Limited crowdedConfig served := by
  obtain ⟨served, ran⟩ := Option.isSome_iff_exists.mp (show (run step (start Nat crowdedConfig 0)
    (request 1 0 ++ [.evictStale 300] ++ request 2 300)).isSome = true by decide)
  exact ⟨served, ran, run_limited (by decide) (by decide) (fun _ impossible => (nomatch impossible))
    (by decide +kernel) ran⟩

end Served

end Pictor.RateLimiter
