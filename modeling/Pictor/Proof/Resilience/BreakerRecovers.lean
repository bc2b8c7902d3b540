import Pictor.Proof.Resilience.BreakerSafe

namespace Pictor.CircuitBreaker.Traffic
open Transitions List

variable {config : CircuitBreakerConfig} {traffic next : Traffic}

/-- After a delay a request is admitted and succeeds. -/
def serve (traffic : Traffic) (delay : Nat) : Option Traffic :=
  let later := { traffic with now := traffic.now + delay }
  if (later.breaker.allowRequest later.now).1 then later.ask.finish later.outstanding.length true else none

/-- The breaker closes after some delays with successful requests only. -/
def Recovers (traffic : Traffic) : Prop :=
  ∃ delays next, run serve traffic delays = some next ∧ next.breaker.state = .closed

/-- Every state without outstanding requests recovers, and no state refuses all later requests. -/
def NeverWedges (config : CircuitBreakerConfig) : Prop :=
  ∀ events traffic, run step (start config) events = some traffic →
    (traffic.outstanding = [] → Recovers traffic) ∧
      ∃ later next, run step traffic later = some next ∧ (next.breaker.allowRequest next.now).1 = true

variable {delay : Nat}

theorem serve_steps (served : serve traffic delay = some next) :
    run step traffic [.advance delay, .ask, .finish traffic.outstanding.length true] = some next := by
  rw [serve] at served
  dsimp only at served
  split at served
  case isTrue =>
    rw [run_cons]
    refine ⟨_, rfl, run_cons.mpr ⟨_, rfl, run_single.mpr served⟩⟩
  case isFalse => cases served

theorem serves_steps {delays : List Nat} (served : run serve traffic delays = some next) :
    ∃ events, run step traffic events = some next := by
  induction delays generalizing traffic with
  | nil => exact ⟨[], served⟩
  | cons delay delays ih =>
      obtain ⟨middle, first, rest⟩ := run_cons.mp served
      obtain ⟨events, steps⟩ := ih rest
      exact ⟨_, run_append.mpr ⟨middle, serve_steps first, steps⟩⟩

theorem finish_some {place : Nat} (inside : place < traffic.outstanding.length) (succeeded : Bool) :
    ∃ next, traffic.finish place succeeded = some next := by
  rw [finish, getElem?_eq_getElem inside]
  exact ⟨_, rfl⟩

/-- A success in a half-open period is counted, and it may close the breaker. -/
theorem finish_success (halfOpen : traffic.breaker.state = .halfOpen) {place : Nat}
    (inside : place < traffic.outstanding.length) :
    ∃ next, traffic.finish place true = some next ∧ next.outstanding = traffic.outstanding.eraseIdx place ∧
      next.now = traffic.now ∧ next.succeeded = traffic.succeeded + 1 ∧
      next.breaker = traffic.breaker.recordSuccess := by
  obtain ⟨next, finished⟩ := finish_some inside true
  obtain ⟨_, breaker, now, outstanding, _, _, _, _, count⟩ := finish_eq finished
  rw [if_pos ⟨halfOpen, rfl⟩] at count
  exact ⟨next, finished, outstanding, now, count, breaker⟩

/-- An admitted request of a half-open period is served. -/
theorem serve_halfOpen (halfOpen : traffic.breaker.state = .halfOpen)
    (below : traffic.breaker.halfOpenRequests < traffic.breaker.config.halfOpenMaxRequests) :
    ∃ next, serve traffic 0 = some next ∧ next.outstanding = traffic.outstanding ∧
      next.succeeded = traffic.succeeded + 1 ∧ next.breaker = { traffic.breaker with
        state := .halfOpen, halfOpenRequests := traffic.breaker.halfOpenRequests + 1 }.recordSuccess := by
  have allowed : (traffic.breaker.allowRequest traffic.now).1 = true := by
    rw [allowRequest, halfOpen]
    exact decide_eq_true below
  have asked := ask_halfOpen halfOpen
  rw [decide_eq_true below] at asked
  have state : traffic.ask.breaker.state = .halfOpen := by rw [asked]; rfl
  have outstanding : traffic.ask.outstanding = traffic.outstanding ++ [some traffic.period] := by rw [asked]; rfl
  obtain ⟨next, finished, rest, _, succeeded, breaker⟩ := @finish_success traffic.ask state traffic.outstanding.length
    (by rw [outstanding, length_append, length_singleton]; exact Nat.lt_succ_self _)
  refine ⟨next, ?_, ?_, ?_, ?_⟩
  · rw [serve]
    exact (if_pos allowed).trans finished
  · rw [rest, outstanding, eraseIdx_append_of_length_le (le_refl _), Nat.sub_self]
    exact append_nil _
  · rw [succeeded, asked]
    rfl
  · rw [breaker, asked]
    rfl

/-- After the timeout an open breaker serves a request. -/
theorem serve_opened (opened : traffic.breaker.state = .opened)
    (elapsed : traffic.breaker.timeoutElapsed (traffic.now + delay) = true) :
    ∃ next, serve traffic delay = some next ∧ next.outstanding = traffic.outstanding ∧ next.breaker =
      { traffic.breaker with state := .halfOpen, halfOpenRequests := 0, successCount := 0 }.recordSuccess := by
  have allowed : (traffic.breaker.allowRequest (traffic.now + delay)).1 = true := by
    rw [allowRequest, opened]
    dsimp only
    rw [if_pos elapsed]
  rcases @ask_opened { traffic with now := traffic.now + delay } opened with ⟨_, impossible⟩ | ⟨_, asked⟩
  · rw [elapsed] at impossible
    cases impossible
  · obtain ⟨next, finished, rest, _, _, breaker⟩ := @finish_success { traffic with now := traffic.now + delay }.ask
      (by rw [asked]) traffic.outstanding.length
      (by rw [asked, length_append, length_singleton]; exact Nat.lt_succ_self _)
    refine ⟨next, ?_, ?_, ?_⟩
    · rw [serve]
      exact (if_pos allowed).trans finished
    · rw [rest, asked, eraseIdx_append_of_length_le (le_refl _), Nat.sub_self]
      exact append_nil _
    · rw [breaker, asked]

theorem Sound.serve (positive : 1 ≤ config.successThreshold) (sound : Sound config traffic)
    (served : serve traffic delay = some next) : Sound config next :=
  run_invariant (fun _ _ _ sound => sound.step positive) sound (serve_steps served)

theorem recovers_cons (served : serve traffic delay = some next) (recovers : Recovers next) : Recovers traffic := by
  obtain ⟨delays, last, ran, closed⟩ := recovers
  exact ⟨delay :: delays, last, run_cons.mpr ⟨next, served, ran⟩, closed⟩

/-- A half-open period without outstanding requests has had as many successes as admissions. -/
theorem recovers_halfOpen (positive : 1 ≤ config.successThreshold)
    (enough : config.successThreshold.toNat ≤ config.halfOpenMaxRequests.toNat + 1) (missing : Nat)
    (sound : Sound config traffic) (idle : traffic.outstanding = []) (halfOpen : traffic.breaker.state = .halfOpen)
    (left : config.successThreshold.toNat ≤ traffic.succeeded + missing) : Recovers traffic := by
  induction missing generalizing traffic with
  | zero =>
      have unfinished := (sound.halfOpen halfOpen).unfinished
      rw [sound.configured] at unfinished
      omega
  | succ missing ih =>
      obtain ⟨_, _, _, unfinished, credit⟩ := sound.halfOpen halfOpen
      rw [idle, count_nil] at credit
      have below : traffic.breaker.halfOpenRequests < traffic.breaker.config.halfOpenMaxRequests := by
        rw [sound.configured] at credit unfinished ⊢
        rw [UInt64.lt_iff_toNat_lt]
        omega
      obtain ⟨next, served, outstanding, succeeded, breaker⟩ := serve_halfOpen halfOpen below
      apply recovers_cons served
      have state := @recordSuccess_halfOpen { traffic.breaker with
        state := .halfOpen, halfOpenRequests := traffic.breaker.halfOpenRequests + 1 } rfl
      rw [← breaker] at state
      rcases state with ⟨_, closed⟩ | ⟨_, stays⟩
      · exact ⟨[], next, rfl, by rw [closed]⟩
      · apply ih (sound.serve positive served)
        · rw [outstanding, idle]
        · rw [stays]
        · rw [succeeded]
          omega

theorem Sound.recovers (positive : 1 ≤ config.successThreshold)
    (enough : config.successThreshold.toNat ≤ config.halfOpenMaxRequests.toNat + 1)
    (sound : Sound config traffic) (idle : traffic.outstanding = []) : Recovers traffic := by
  cases state : traffic.breaker.state with
  | closed => exact ⟨[], traffic, rfl, state⟩
  | halfOpen => exact recovers_halfOpen positive enough _ sound idle state (Nat.le_add_left _ _)
  | opened =>
      obtain ⟨time, past, recorded, _⟩ := sound.failed state
      have elapsed : traffic.breaker.timeoutElapsed (traffic.now + traffic.breaker.config.recoveryTimeout) = true := by
        rw [timeoutElapsed, recorded]
        apply decide_eq_true
        omega
      obtain ⟨next, served, outstanding, breaker⟩ := serve_opened state elapsed
      apply recovers_cons served
      have after := @recordSuccess_halfOpen
        { traffic.breaker with state := .halfOpen, halfOpenRequests := 0, successCount := 0 } rfl
      rw [← breaker] at after
      rcases after with ⟨_, closed⟩ | ⟨_, stays⟩
      · exact ⟨[], next, rfl, by rw [closed]⟩
      · have sound' := sound.serve positive served
        exact recovers_halfOpen positive enough _ sound' (by rw [outstanding, idle]) (by rw [stays])
          (Nat.le_add_left _ _)

/-- The outstanding requests can all finish. -/
theorem finishAll (traffic : Traffic) :
    ∃ events next, run step traffic events = some next ∧ next.outstanding = [] := by
  generalize size : traffic.outstanding.length = count
  induction count generalizing traffic with
  | zero => exact ⟨[], traffic, rfl, length_eq_zero_iff.mp size⟩
  | succ count ih =>
      obtain ⟨next, finished⟩ := @finish_some traffic 0 (by omega) true
      obtain ⟨_, _, _, outstanding, _⟩ := finish_eq finished
      have shorter : next.outstanding.length = count := by
        rw [outstanding, length_eraseIdx_of_lt (by omega)]
        omega
      obtain ⟨events, last, ran, empty⟩ := ih next shorter
      exact ⟨.finish 0 true :: events, last, run_cons.mpr ⟨next, finished, ran⟩, empty⟩

/-- A state without outstanding requests that a run reaches. -/
def Idle (config : CircuitBreakerConfig) (traffic : Traffic) : Prop :=
  (∃ events, run step (start config) events = some traffic) ∧ traffic.outstanding = [] ∧
    traffic.breaker.config = config

theorem Idle.served (idle : Idle config traffic) {delay : Nat} (served : serve traffic delay = some next)
    (outstanding : next.outstanding = traffic.outstanding) (same : next.breaker.config = traffic.breaker.config) :
    Idle config next := by
  obtain ⟨⟨events, ran⟩, empty, configured⟩ := idle
  refine ⟨⟨_, run_append.mpr ⟨traffic, ran, serve_steps served⟩⟩, ?_, ?_⟩
  · rw [outstanding, empty]
  · rw [same, configured]

/-- A request of the closed state fails. -/
theorem Idle.fails (idle : Idle config traffic) (closed : traffic.breaker.state = .closed) :
    ∃ next, Idle config next ∧ next.breaker = traffic.breaker.recordFailure traffic.now := by
  obtain ⟨⟨events, ran⟩, empty, configured⟩ := idle
  have asked := ask_closed closed
  obtain ⟨next, finished⟩ := @finish_some traffic.ask 0
    (by rw [asked, length_append, length_singleton]; exact Nat.succ_pos _) false
  obtain ⟨_, breaker, _, outstanding, _⟩ := finish_eq finished
  have failed : next.breaker = traffic.breaker.recordFailure traffic.now := by
    rw [breaker, asked]
    rfl
  refine ⟨next, ⟨⟨events ++ [.ask, .finish 0 false], ?_⟩, ?_, ?_⟩, failed⟩
  · exact run_append.mpr ⟨traffic, ran, run_cons.mpr ⟨_, rfl, run_single.mpr finished⟩⟩
  · rw [outstanding, asked, empty]
    rfl
  · rw [failed, (recordFailure_cases traffic.breaker traffic.now).1, configured]

/-- Enough failures open the breaker. -/
theorem opens (positive : 1 ≤ config.failureThreshold) :
    ∃ traffic, Idle config traffic ∧ traffic.breaker.state = .opened ∧
      ∃ time, traffic.breaker.lastFailureTime = some time := by
  have failing (count : Nat) (few : count < config.failureThreshold.toNat) : ∃ traffic, Idle config traffic ∧
      traffic.breaker.state = .closed ∧ traffic.breaker.failureCount.toNat = count := by
    induction count with
    | zero => exact ⟨start config, ⟨⟨[], rfl⟩, rfl, rfl⟩, rfl, rfl⟩
    | succ count ih =>
        obtain ⟨traffic, idle, closed, counted⟩ := ih (by omega)
        obtain ⟨next, idle', breaker⟩ := idle.fails closed
        have limit := config.failureThreshold.toNat_lt
        have sum := UInt64.toNat_add traffic.breaker.failureCount 1
        change _ = (_ + 1) % 2 ^ 64 at sum
        rw [Nat.mod_eq_of_lt (by omega), counted] at sum
        have below : ¬traffic.breaker.config.failureThreshold ≤ traffic.breaker.failureCount + 1 := by
          rw [idle.2.2, UInt64.le_iff_toNat_le, sum]
          omega
        have failed : next.breaker =
            { traffic.breaker with state := .closed, failureCount := traffic.breaker.failureCount + 1 } := by
          rw [breaker, recordFailure, closed]
          exact if_neg below
        refine ⟨next, idle', ?_, ?_⟩
        · rw [failed]
        · rw [failed]
          exact sum
  have positive' := UInt64.le_iff_toNat_le.mp positive
  change 1 ≤ _ at positive'
  obtain ⟨traffic, idle, closed, counted⟩ := failing (config.failureThreshold.toNat - 1) (by omega)
  obtain ⟨next, idle', breaker⟩ := idle.fails closed
  have limit := config.failureThreshold.toNat_lt
  have sum := UInt64.toNat_add traffic.breaker.failureCount 1
  change _ = (_ + 1) % 2 ^ 64 at sum
  rw [Nat.mod_eq_of_lt (by omega), counted] at sum
  have reached : traffic.breaker.config.failureThreshold ≤ traffic.breaker.failureCount + 1 := by
    rw [idle.2.2, UInt64.le_iff_toNat_le, sum]
    omega
  have failed : next.breaker = { traffic.breaker with
      state := .opened, failureCount := traffic.breaker.failureCount + 1, lastFailureTime := some traffic.now } := by
    rw [breaker, recordFailure, closed]
    exact if_pos reached
  exact ⟨next, idle', by rw [failed], traffic.now, by rw [failed]⟩

/-- All requests of a half-open period succeed, and the period reaches its limit. -/
theorem exhausts (positive : 1 ≤ config.failureThreshold)
    (short : config.halfOpenMaxRequests.toNat + 1 < config.successThreshold.toNat) :
    ∃ traffic, Idle config traffic ∧ traffic.breaker.state = .halfOpen ∧
      traffic.breaker.halfOpenRequests = config.halfOpenMaxRequests := by
  have limit := config.successThreshold.toNat_lt
  have probing (count : Nat) (few : count ≤ config.halfOpenMaxRequests.toNat) : ∃ traffic, Idle config traffic ∧
      traffic.breaker.state = .halfOpen ∧ traffic.breaker.halfOpenRequests.toNat = count ∧
        traffic.breaker.successCount.toNat = count + 1 := by
    induction count with
    | zero =>
        obtain ⟨traffic, idle, opened, time, recorded⟩ := opens positive
        have elapsed : traffic.breaker.timeoutElapsed
            (traffic.now + (time + traffic.breaker.config.recoveryTimeout)) = true := by
          rw [timeoutElapsed, recorded]
          apply decide_eq_true
          omega
        obtain ⟨next, served, outstanding, breaker⟩ := serve_opened opened elapsed
        have after := @recordSuccess_halfOpen
          { traffic.breaker with state := .halfOpen, halfOpenRequests := 0, successCount := 0 } rfl
        rw [← breaker] at after
        rcases after with ⟨enough, _⟩ | ⟨_, stays⟩
        · rw [idle.2.2, UInt64.le_iff_toNat_le] at enough
          change _ ≤ 1 at enough
          omega
        · refine ⟨next, idle.served served outstanding (by rw [stays]), by rw [stays], by rw [stays]; rfl, ?_⟩
          rw [stays]
          rfl
    | succ count ih =>
        obtain ⟨traffic, idle, halfOpen, requests, successes⟩ := ih (by omega)
        have below : traffic.breaker.halfOpenRequests < traffic.breaker.config.halfOpenMaxRequests := by
          rw [idle.2.2, UInt64.lt_iff_toNat_lt]
          omega
        have request := UInt64.toNat_add traffic.breaker.halfOpenRequests 1
        have success := UInt64.toNat_add traffic.breaker.successCount 1
        change _ = (_ + 1) % 2 ^ 64 at request
        change _ = (_ + 1) % 2 ^ 64 at success
        rw [Nat.mod_eq_of_lt (by omega), requests] at request
        rw [Nat.mod_eq_of_lt (by omega), successes] at success
        obtain ⟨next, served, outstanding, _, breaker⟩ := serve_halfOpen halfOpen below
        have after := @recordSuccess_halfOpen { traffic.breaker with
          state := .halfOpen, halfOpenRequests := traffic.breaker.halfOpenRequests + 1 } rfl
        rw [← breaker] at after
        rcases after with ⟨enough, _⟩ | ⟨_, stays⟩
        · rw [idle.2.2, UInt64.le_iff_toNat_le] at enough
          change _ ≤ (traffic.breaker.successCount + 1).toNat at enough
          omega
        · refine ⟨next, idle.served served outstanding (by rw [stays]), by rw [stays], ?_, ?_⟩
          · rw [stays]
            exact request
          · rw [stays]
            exact success
  obtain ⟨traffic, idle, halfOpen, requests, _⟩ := probing _ (le_refl _)
  exact ⟨traffic, idle, halfOpen, UInt64.toNat_inj.mp requests⟩

/-- A half-open period at its limit serves no request. -/
theorem not_recovers (halfOpen : traffic.breaker.state = .halfOpen)
    (full : traffic.breaker.halfOpenRequests = traffic.breaker.config.halfOpenMaxRequests) : ¬Recovers traffic := by
  intro ⟨delays, last, ran, closed⟩
  cases delays with
  | nil =>
      cases ran
      rw [halfOpen] at closed
      cases closed
  | cons delay delays =>
      obtain ⟨next, served, _⟩ := run_cons.mp ran
      have refused : ¬(traffic.breaker.allowRequest (traffic.now + delay)).1 = true := by
        rw [allowRequest, halfOpen]
        dsimp only
        rw [full, decide_eq_true_iff]
        exact UInt64.lt_irrefl _
      have nothing : serve traffic delay = none := if_neg refused
      rw [nothing] at served
      cases served

/-- The breaker never wedges exactly if a half-open period can admit as many requests as it needs successes. -/
theorem neverWedges_iff (failure : 1 ≤ config.failureThreshold) (success : 1 ≤ config.successThreshold) :
    NeverWedges config ↔ config.successThreshold.toNat ≤ config.halfOpenMaxRequests.toNat + 1 := by
  constructor
  · intro never
    by_contra short
    obtain ⟨traffic, ⟨⟨events, ran⟩, empty, configured⟩, halfOpen, full⟩ :=
      exhausts failure (Nat.not_le.mp short)
    rw [← configured] at full
    exact not_recovers halfOpen full ((never events traffic ran).1 empty)
  · intro enough events traffic ran
    refine ⟨(run_sound success ran).recovers success enough, ?_⟩
    obtain ⟨finishing, idle, finished, empty⟩ := finishAll traffic
    have reached : run step (start config) (events ++ finishing) = some idle := run_append.mpr ⟨traffic, ran, finished⟩
    obtain ⟨delays, last, served, closed⟩ := (run_sound success reached).recovers success enough empty
    obtain ⟨serving, steps⟩ := serves_steps served
    refine ⟨finishing ++ serving, last, run_append.mpr ⟨idle, finished, steps⟩, ?_⟩
    rw [allowRequest, closed]

/-- Three successes are needed and two requests are admitted. -/
def shortConfig : CircuitBreakerConfig := ⟨1, 0, 1, 3⟩

/-- The default thresholds never wedge. -/
theorem defaultThresholds_neverWedges :
    NeverWedges ⟨5, 30000000000, 3, 2⟩ ↔ (2 : UInt64).toNat ≤ (3 : UInt64).toNat + 1 :=
  @neverWedges_iff ⟨5, 30000000000, 3, 2⟩ (by decide) (by decide)

theorem shortConfig_wedges : ∃ traffic, run step (start shortConfig)
    [.ask, .finish 0 false, .ask, .finish 0 true, .ask, .finish 0 true] = some traffic ∧
      traffic.outstanding = [] ∧ ¬Recovers traffic :=
  ⟨_, rfl, rfl, not_recovers rfl rfl⟩

end Pictor.CircuitBreaker.Traffic
