import Pictor.Construction.Resilience.RequestQueue
import Pictor.Library.Transitions

namespace Pictor.CircuitBreaker
open Transitions List

/-- A breaker with the calls that go through it. An outstanding request carries the half-open period that admitted it.
The counts are those of the current half-open period. -/
structure Traffic where
  breaker : CircuitBreaker
  now : Nat
  outstanding : List (Option Nat)
  lastFailure : Option Nat
  period : Nat
  asked : Nat
  admitted : Nat
  succeeded : Nat
  ownSucceeded : Nat

/-- Time passes, a request asks to be admitted, or the outcome of an admitted request is recorded. -/
inductive Event where
  | advance (elapsed : Nat)
  | ask
  | finish (place : Nat) (succeeded : Bool)

namespace Traffic

def start (config : CircuitBreakerConfig) : Traffic := ⟨new config, 0, [], none, 0, 0, 0, 0, 0⟩

/-- The request that ends the open state begins a period. -/
def beginPeriod (traffic : Traffic) : Traffic :=
  { traffic with period := traffic.period + 1, asked := 0, admitted := 0, succeeded := 0, ownSucceeded := 0 }

/-- A request of the current half-open period. -/
def askedHalfOpen (traffic : Traffic) (allowed : Bool) : Traffic :=
  { traffic with
    outstanding := if allowed then traffic.outstanding ++ [some traffic.period] else traffic.outstanding
    asked := traffic.asked + 1
    admitted := if allowed then traffic.admitted + 1 else traffic.admitted }

def ask (traffic : Traffic) : Traffic :=
  let (allowed, breaker) := traffic.breaker.allowRequest traffic.now
  let later := { traffic with breaker }
  match traffic.breaker.state with
  | .closed => { later with outstanding := traffic.outstanding ++ [none] }
  | .opened => if allowed then later.beginPeriod.askedHalfOpen true else later
  | .halfOpen => later.askedHalfOpen allowed

def finish (traffic : Traffic) (place : Nat) (succeeded : Bool) : Option Traffic :=
  traffic.outstanding[place]?.map fun period =>
    let counts := traffic.breaker.state = .halfOpen ∧ succeeded = true
    { traffic with
      breaker := traffic.breaker.record traffic.now succeeded
      outstanding := traffic.outstanding.eraseIdx place
      lastFailure := if succeeded then traffic.lastFailure else some traffic.now
      succeeded := if counts then traffic.succeeded + 1 else traffic.succeeded
      ownSucceeded :=
        if counts ∧ period = some traffic.period then traffic.ownSucceeded + 1 else traffic.ownSucceeded }

def step (traffic : Traffic) : Event → Option Traffic
  | .advance elapsed => some { traffic with now := traffic.now + elapsed }
  | .ask => some traffic.ask
  | .finish place succeeded => traffic.finish place succeeded

/-- The facts of a half-open period. The counter of the requests wraps around. -/
structure HalfOpen (traffic : Traffic) : Prop where
  counted : traffic.asked ≤ 2 ^ 64 → traffic.breaker.halfOpenRequests.toNat + 1 = traffic.asked
  bounded : traffic.asked ≤ 2 ^ 64 → traffic.admitted ≤
    1 + min traffic.breaker.halfOpenRequests.toNat traffic.breaker.config.halfOpenMaxRequests.toNat
  successes : traffic.breaker.successCount.toNat = traffic.succeeded
  unfinished : traffic.succeeded < traffic.breaker.config.successThreshold.toNat
  credit : 1 + min traffic.breaker.halfOpenRequests.toNat traffic.breaker.config.halfOpenMaxRequests.toNat ≤
    traffic.succeeded + traffic.outstanding.count (some traffic.period)

/-- The facts of every state that a run reaches. -/
structure Sound (config : CircuitBreakerConfig) (traffic : Traffic) : Prop where
  configured : traffic.breaker.config = config
  periods : ∀ period, some period ∈ traffic.outstanding → period ≤ traffic.period
  failed : traffic.breaker.state = .opened → ∃ time ≤ traffic.now,
    traffic.breaker.lastFailureTime = some time ∧ traffic.lastFailure = some time
  halfOpen : traffic.breaker.state = .halfOpen → HalfOpen traffic

variable {config : CircuitBreakerConfig} {traffic next : Traffic}

theorem sound_start (config : CircuitBreakerConfig) : Sound config (start config) where
  configured := rfl
  periods _ none := (nomatch none)
  failed impossible := (nomatch impossible)
  halfOpen impossible := (nomatch impossible)

/-- A request in the open state waits for the timeout, or begins a half-open period. -/
theorem ask_opened (opened : traffic.breaker.state = .opened) :
    traffic.ask = traffic ∧ traffic.breaker.timeoutElapsed traffic.now = false ∨
      traffic.breaker.timeoutElapsed traffic.now = true ∧ traffic.ask = { traffic with
          breaker := { traffic.breaker with state := .halfOpen, halfOpenRequests := 0, successCount := 0 }
          outstanding := traffic.outstanding ++ [some (traffic.period + 1)]
          period := traffic.period + 1, asked := 1, admitted := 1, succeeded := 0, ownSucceeded := 0 } := by
  rw [ask, allowRequest, opened]
  cases elapsed : traffic.breaker.timeoutElapsed traffic.now with
  | false => exact Or.inl ⟨rfl, rfl⟩
  | true => exact Or.inr ⟨rfl, rfl⟩

theorem ask_halfOpen (halfOpen : traffic.breaker.state = .halfOpen) :
    traffic.ask = { traffic with breaker := { traffic.breaker with
      state := .halfOpen, halfOpenRequests := traffic.breaker.halfOpenRequests + 1 } }.askedHalfOpen
        (traffic.breaker.halfOpenRequests < traffic.breaker.config.halfOpenMaxRequests) := by
  rw [ask, allowRequest, halfOpen]

theorem ask_closed (closed : traffic.breaker.state = .closed) :
    traffic.ask = { traffic with outstanding := traffic.outstanding ++ [none] } := by
  rw [ask, allowRequest, closed]

/-- A further request of a half-open period is admitted as long as the limit is not reached. -/
theorem HalfOpen.asked (facts : HalfOpen traffic) {allowed : Bool}
    (below : decide (traffic.breaker.halfOpenRequests < traffic.breaker.config.halfOpenMaxRequests) = allowed) :
    HalfOpen ({ traffic with breaker := { traffic.breaker with
      state := .halfOpen, halfOpenRequests := traffic.breaker.halfOpenRequests + 1 } }.askedHalfOpen allowed) := by
  obtain ⟨counted, bounded, successes, unfinished, credit⟩ := facts
  have sum := UInt64.toNat_add traffic.breaker.halfOpenRequests 1
  change _ = (_ + 1) % 2 ^ 64 at sum
  have limit := traffic.breaker.config.halfOpenMaxRequests.toNat_lt
  cases allowed with
  | true =>
      have lower := UInt64.lt_iff_toNat_lt.mp (of_decide_eq_true below)
      rw [Nat.mod_eq_of_lt (by omega)] at sum
      constructor
      · change traffic.asked + 1 ≤ 2 ^ 64 → (traffic.breaker.halfOpenRequests + 1).toNat + 1 = traffic.asked + 1
        intro few
        rw [sum, counted (by omega)]
      · change traffic.asked + 1 ≤ 2 ^ 64 → traffic.admitted + 1 ≤
          1 + min (traffic.breaker.halfOpenRequests + 1).toNat traffic.breaker.config.halfOpenMaxRequests.toNat
        intro few
        have before := bounded (by omega)
        rw [sum]
        omega
      · exact successes
      · exact unfinished
      · change 1 + min (traffic.breaker.halfOpenRequests + 1).toNat traffic.breaker.config.halfOpenMaxRequests.toNat ≤
          traffic.succeeded + (traffic.outstanding ++ [some traffic.period]).count (some traffic.period)
        rw [sum, count_append, count_singleton_self]
        omega
  | false =>
      have upper := Nat.not_lt.mp fun lower => of_decide_eq_false below (UInt64.lt_iff_toNat_lt.mpr lower)
      constructor
      · change traffic.asked + 1 ≤ 2 ^ 64 → (traffic.breaker.halfOpenRequests + 1).toNat + 1 = traffic.asked + 1
        intro few
        have before := counted (by omega)
        rw [sum, Nat.mod_eq_of_lt (by omega), before]
      · change traffic.asked + 1 ≤ 2 ^ 64 → traffic.admitted ≤
          1 + min (traffic.breaker.halfOpenRequests + 1).toNat traffic.breaker.config.halfOpenMaxRequests.toNat
        intro few
        have before := bounded (by omega)
        rw [sum, Nat.mod_eq_of_lt (by have same := counted (by omega); omega)]
        omega
      · exact successes
      · exact unfinished
      · change 1 + min (traffic.breaker.halfOpenRequests + 1).toNat traffic.breaker.config.halfOpenMaxRequests.toNat ≤
          traffic.succeeded + traffic.outstanding.count (some traffic.period)
        omega

theorem Sound.ask (positive : 1 ≤ config.successThreshold) (sound : Sound config traffic) :
    Sound config traffic.ask := by
  cases state : traffic.breaker.state with
  | closed =>
      rw [ask_closed state]
      constructor
      · exact sound.configured
      · intro period member
        rcases mem_append.mp member with old | new
        · exact sound.periods period old
        · cases mem_singleton.mp new
      · intro impossible
        rw [state] at impossible
        cases impossible
      · intro impossible
        rw [state] at impossible
        cases impossible
  | opened =>
      rcases ask_opened state with ⟨same, _⟩ | ⟨_, begun⟩
      · rwa [same]
      · rw [begun]
        constructor
        · exact sound.configured
        · intro period member
          rcases mem_append.mp member with old | new
          · exact Nat.le_succ_of_le (sound.periods period old)
          · rw [Option.some.inj (mem_singleton.mp new)]
        · exact fun impossible => (nomatch impossible)
        · intro _
          have fresh : traffic.outstanding.count (some (traffic.period + 1)) = 0 := by
            rw [List.count_eq_zero]
            intro member
            exact Nat.not_succ_le_self _ (sound.periods _ member)
          constructor
          · exact fun _ => rfl
          · exact fun _ => Nat.le_add_right 1 _
          · rfl
          · change 0 < traffic.breaker.config.successThreshold.toNat
            rw [sound.configured]
            exact UInt64.le_iff_toNat_le.mp positive
          · change 1 + min 0 _ ≤ 0 + (traffic.outstanding ++ [some (traffic.period + 1)]).count _
            rw [count_append, fresh, Nat.zero_min, count_singleton_self]
  | halfOpen =>
      have facts := sound.halfOpen state
      rw [ask_halfOpen state]
      generalize below :
        decide (traffic.breaker.halfOpenRequests < traffic.breaker.config.halfOpenMaxRequests) = allowed
      constructor
      · exact sound.configured
      · intro period member
        cases allowed with
        | false => exact sound.periods period member
        | true =>
            rcases mem_append.mp member with old | new
            · exact sound.periods period old
            · exact Nat.le_of_eq (Option.some.inj (mem_singleton.mp new))
      · exact fun impossible => (nomatch impossible)
      · exact fun _ => facts.asked below

variable {place : Nat} {succeeded : Bool}

theorem finish_eq (finished : traffic.finish place succeeded = some next) :
    place < traffic.outstanding.length ∧ next.breaker = traffic.breaker.record traffic.now succeeded ∧
      next.now = traffic.now ∧ next.outstanding = traffic.outstanding.eraseIdx place ∧
      next.lastFailure = (if succeeded then traffic.lastFailure else some traffic.now) ∧
      next.period = traffic.period ∧ next.asked = traffic.asked ∧ next.admitted = traffic.admitted ∧ next.succeeded =
        if traffic.breaker.state = .halfOpen ∧ succeeded = true then traffic.succeeded + 1 else traffic.succeeded := by
  rw [finish, Option.map_eq_some_iff] at finished
  obtain ⟨period, found, rfl⟩ := finished
  obtain ⟨inside, _⟩ := List.getElem?_eq_some_iff.mp found
  exact ⟨inside, rfl, rfl, rfl, rfl, rfl, rfl, rfl, rfl⟩

/-- A success of a half-open period closes the breaker or is counted. -/
theorem recordSuccess_halfOpen {breaker : CircuitBreaker} (halfOpen : breaker.state = .halfOpen) :
    breaker.config.successThreshold ≤ breaker.successCount + 1 ∧
        breaker.recordSuccess = { breaker with state := .closed, failureCount := 0, successCount := 0 } ∨
      breaker.successCount + 1 < breaker.config.successThreshold ∧
        breaker.recordSuccess = { breaker with state := .halfOpen, successCount := breaker.successCount + 1 } := by
  rw [recordSuccess, halfOpen]
  by_cases enough : breaker.config.successThreshold ≤ breaker.successCount + 1
  · exact Or.inl ⟨enough, if_pos enough⟩
  · exact Or.inr ⟨UInt64.not_le.mp enough, if_neg enough⟩

/-- A recorded failure opens the breaker or leaves it closed. -/
theorem recordFailure_cases (breaker : CircuitBreaker) (now : Nat) :
    (breaker.recordFailure now).config = breaker.config ∧ ((breaker.recordFailure now).state = .closed ∨
        (breaker.recordFailure now).state = .opened ∧ (breaker.recordFailure now).lastFailureTime = some now) := by
  rw [recordFailure]
  cases state : breaker.state with
  | closed =>
      by_cases enough : breaker.config.failureThreshold ≤ breaker.failureCount + 1
      · rw [if_pos enough]
        exact ⟨rfl, Or.inr ⟨rfl, rfl⟩⟩
      · rw [if_neg enough]
        exact ⟨rfl, Or.inl rfl⟩
  | opened => exact ⟨rfl, Or.inr ⟨rfl, rfl⟩⟩
  | halfOpen => exact ⟨rfl, Or.inr ⟨rfl, rfl⟩⟩

/-- A success that does not close the breaker is counted, and its request is no longer outstanding. -/
theorem HalfOpen.finished (facts : HalfOpen traffic) (inside : place < traffic.outstanding.length)
    (few : traffic.breaker.successCount + 1 < traffic.breaker.config.successThreshold)
    (breaker : next.breaker = { traffic.breaker with state := .halfOpen, successCount := traffic.breaker.successCount + 1 })
    (outstanding : next.outstanding = traffic.outstanding.eraseIdx place) (period : next.period = traffic.period)
    (asked : next.asked = traffic.asked) (admitted : next.admitted = traffic.admitted)
    (succeeded : next.succeeded = traffic.succeeded + 1) : HalfOpen next := by
  obtain ⟨counted, bounded, successes, unfinished, credit⟩ := facts
  have sum := UInt64.toNat_add traffic.breaker.successCount 1
  have limit := traffic.breaker.config.successThreshold.toNat_lt
  change _ = (_ + 1) % 2 ^ 64 at sum
  rw [Nat.mod_eq_of_lt (by omega)] at sum
  constructor
  · rw [asked, breaker]
    exact counted
  · rw [asked, admitted, breaker]
    exact bounded
  · rw [succeeded, breaker, ← successes, sum]
  · rw [succeeded, breaker, ← successes, ← sum]
    exact UInt64.lt_iff_toNat_lt.mp few
  · have kept := @List.Sublist.le_count _ _ _ _ (eraseIdx_sublist traffic.outstanding place)
      (some traffic.period)
    rw [length_eraseIdx_of_lt inside] at kept
    rw [breaker, succeeded, outstanding, period]
    change 1 + min traffic.breaker.halfOpenRequests.toNat traffic.breaker.config.halfOpenMaxRequests.toNat ≤ _
    omega

theorem Sound.finish (sound : Sound config traffic) (finished : traffic.finish place succeeded = some next) :
    Sound config next := by
  obtain ⟨inside, breaker, now, outstanding, lastFailure, period, asked, admitted, count⟩ := finish_eq finished
  have periods : ∀ period, some period ∈ next.outstanding → period ≤ next.period := by
    intro other member
    rw [outstanding] at member
    rw [period]
    exact sound.periods other (mem_of_mem_eraseIdx member)
  cases succeeded with
  | false =>
      obtain ⟨configured, states⟩ := recordFailure_cases traffic.breaker traffic.now
      rw [record, if_neg Bool.false_ne_true] at breaker
      rw [← breaker] at configured states
      constructor
      · rw [configured, sound.configured]
      · exact periods
      · intro opened
        rcases states with closed | ⟨_, time⟩
        · rw [opened] at closed
          cases closed
        · exact ⟨traffic.now, by rw [now], time, lastFailure⟩
      · intro halfOpen
        rw [halfOpen] at states
        rcases states with impossible | ⟨impossible, _⟩ <;> cases impossible
  | true =>
      rw [record, if_pos rfl] at breaker
      rw [if_pos rfl] at lastFailure
      cases state : traffic.breaker.state with
      | closed =>
          have same : traffic.breaker.recordSuccess = { traffic.breaker with state := .closed, failureCount := 0 } := by
            rw [recordSuccess, state]
          rw [same] at breaker
          constructor
          · rw [breaker]
            exact sound.configured
          · exact periods
          · intro impossible
            rw [breaker] at impossible
            cases impossible
          · intro impossible
            rw [breaker] at impossible
            cases impossible
      | opened =>
          have same : traffic.breaker.recordSuccess = traffic.breaker := by
            rw [recordSuccess, state]
          rw [same] at breaker
          constructor
          · rw [breaker]
            exact sound.configured
          · exact periods
          · intro _
            rw [breaker, now, lastFailure]
            exact sound.failed state
          · intro impossible
            rw [breaker, state] at impossible
            cases impossible
      | halfOpen =>
          rw [if_pos ⟨state, rfl⟩] at count
          rcases recordSuccess_halfOpen state with ⟨_, same⟩ | ⟨few, same⟩
          · rw [same] at breaker
            constructor
            · rw [breaker]
              exact sound.configured
            · exact periods
            · intro impossible
              rw [breaker] at impossible
              cases impossible
            · intro impossible
              rw [breaker] at impossible
              cases impossible
          · rw [same] at breaker
            constructor
            · rw [breaker]
              exact sound.configured
            · exact periods
            · intro impossible
              rw [breaker] at impossible
              cases impossible
            · intro _
              exact (sound.halfOpen state).finished inside few breaker outstanding period asked admitted count

theorem Sound.step (positive : 1 ≤ config.successThreshold) (sound : Sound config traffic) {event : Event}
    (stepped : traffic.step event = some next) : Sound config next := by
  cases event with
  | advance elapsed =>
      cases stepped
      constructor
      · exact sound.configured
      · exact sound.periods
      · intro opened
        obtain ⟨time, past, facts⟩ := sound.failed opened
        exact ⟨time, Nat.le_add_right_of_le past, facts⟩
      · intro halfOpen
        obtain ⟨counted, bounded, successes, unfinished, credit⟩ := sound.halfOpen halfOpen
        exact ⟨counted, bounded, successes, unfinished, credit⟩
  | ask =>
      cases stepped
      exact sound.ask positive
  | finish place succeeded => exact sound.finish stepped

theorem run_sound (positive : 1 ≤ config.successThreshold) {events : List Event}
    (reached : run step (start config) events = some traffic) : Sound config traffic :=
  run_invariant (fun _ _ _ sound => sound.step positive) (sound_start config) reached

end Traffic

end Pictor.CircuitBreaker

namespace Pictor.CircuitBreaker.Traffic
open Transitions

variable {config : CircuitBreakerConfig} {traffic next : Traffic} {event : Event}

/-- A state of a run is guarded: the open state admits no request before the timeout, a half-open period admits at most
one request more than its limit, and it ends in the closed state only after enough successes. -/
structure Guarded (traffic : Traffic) : Prop where
  opened : traffic.breaker.state = .opened → (traffic.breaker.allowRequest traffic.now).1 = true →
    ∃ time, traffic.lastFailure = some time ∧ traffic.breaker.config.recoveryTimeout ≤ traffic.now - time
  halfOpen : traffic.breaker.state = .halfOpen → traffic.asked ≤ 2 ^ 64 →
    traffic.admitted ≤ traffic.breaker.config.halfOpenMaxRequests.toNat + 1
  closes : traffic.breaker.state = .halfOpen → ∀ event next, traffic.step event = some next →
    next.breaker.state = .closed → next.breaker.config.successThreshold.toNat ≤ next.succeeded

/-- Only a success ends a half-open period in the closed state. -/
theorem HalfOpen.closes (facts : HalfOpen traffic) (halfOpen : traffic.breaker.state = .halfOpen)
    (stepped : traffic.step event = some next) (closed : next.breaker.state = .closed) :
    next.breaker.config.successThreshold.toNat ≤ next.succeeded := by
  cases event with
  | advance elapsed =>
      cases stepped
      rw [halfOpen] at closed
      cases closed
  | ask =>
      cases stepped
      rw [ask_halfOpen halfOpen] at closed
      cases closed
  | finish place succeeded =>
      obtain ⟨_, breaker, _, _, _, _, _, _, count⟩ := finish_eq stepped
      cases succeeded with
      | false =>
          have failed : (traffic.breaker.recordFailure traffic.now).state = .opened := by
            rw [recordFailure, halfOpen]
          rw [breaker, record, if_neg Bool.false_ne_true, failed] at closed
          cases closed
      | true =>
          rw [if_pos ⟨halfOpen, rfl⟩] at count
          rw [record, if_pos rfl] at breaker
          rcases recordSuccess_halfOpen halfOpen with ⟨enough, same⟩ | ⟨_, same⟩
          · have limit := traffic.breaker.config.successThreshold.toNat_lt
            have sum := UInt64.toNat_add traffic.breaker.successCount 1
            change _ = (_ + 1) % 2 ^ 64 at sum
            have before := facts.unfinished
            rw [← facts.successes] at before
            rw [Nat.mod_eq_of_lt (by omega), facts.successes] at sum
            rw [count, ← sum, breaker, same]
            exact UInt64.le_iff_toNat_le.mp enough
          · rw [breaker, same] at closed
            cases closed

theorem Sound.guarded (sound : Sound config traffic) : Guarded traffic where
  opened opened admitted := by
    obtain ⟨time, _, recorded, last⟩ := sound.failed opened
    refine ⟨time, last, ?_⟩
    rw [allowRequest, opened] at admitted
    cases elapsed : traffic.breaker.timeoutElapsed traffic.now with
    | false =>
        rw [elapsed] at admitted
        cases admitted
    | true =>
        rw [timeoutElapsed, recorded] at elapsed
        exact of_decide_eq_true elapsed
  halfOpen halfOpen few := by
    have bounded := (sound.halfOpen halfOpen).bounded few
    omega
  closes halfOpen _ _ stepped closed := (sound.halfOpen halfOpen).closes halfOpen stepped closed

/-- Every state that a run reaches is guarded. -/
theorem run_guarded (positive : 1 ≤ config.successThreshold) {events : List Event}
    (reached : run step (start config) events = some traffic) : Guarded traffic :=
  (run_sound positive reached).guarded

/-- One failure opens the breaker, and one success closes it. -/
def quickConfig : CircuitBreakerConfig := ⟨1, 0, 1, 1⟩

/-- A request of the closed state is outstanding while the breaker opens and half opens. -/
def overlappingEvents : List Event := [.ask, .ask, .finish 0 false, .ask, .ask]

theorem overlappingEvents_guarded :
    ∃ traffic, run step (start quickConfig) overlappingEvents = some traffic ∧ Guarded traffic :=
  ⟨_, rfl, @run_guarded quickConfig _ (by decide) overlappingEvents rfl⟩

/-- The period admits two requests with a limit of one, and the late success of the earlier request closes the
breaker without a success of the period's own requests. -/
theorem overlappingEvents_late : ∃ traffic next, run step (start quickConfig) overlappingEvents = some traffic ∧
    traffic.breaker.state = .halfOpen ∧ quickConfig.halfOpenMaxRequests.toNat < traffic.admitted ∧
    traffic.step (.finish 0 true) = some next ∧ next.breaker.state = .closed ∧
    next.ownSucceeded < quickConfig.successThreshold.toNat :=
  ⟨_, _, rfl, rfl, by decide, rfl, rfl, by decide⟩

end Pictor.CircuitBreaker.Traffic
