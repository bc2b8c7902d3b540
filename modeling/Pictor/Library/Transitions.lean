import Mathlib.Data.List.Forall2
import Mathlib.Data.List.Induction

namespace Pictor.Transitions

variable {State Event : Type} {step : State → Event → Option State}

/-- A run takes the steps of its events one after another. -/
def run (step : State → Event → Option State) : State → List Event → Option State
  | state, [] => some state
  | state, event :: events =>
      match step state event with
      | none => none
      | some next => run step next events

variable {state next last : State} {event : Event} {events later : List Event}

@[simp] theorem run_nil : run step state [] = some state := rfl

theorem run_cons : run step state (event :: events) = some last ↔
    ∃ next, step state event = some next ∧ run step next events = some last := by
  rw [run]
  cases step state event with
  | none => simp
  | some next => simp

theorem run_append : run step state (events ++ later) = some last ↔
    ∃ next, run step state events = some next ∧ run step next later = some last := by
  induction events generalizing state with
  | nil => simp
  | cons event events ih =>
      simp only [List.cons_append, run_cons]
      constructor
      · intro ⟨first, stepped, ran⟩
        obtain ⟨next, ran, ran'⟩ := ih.mp ran
        exact ⟨next, ⟨first, stepped, ran⟩, ran'⟩
      · intro ⟨next, ⟨first, stepped, ran⟩, ran'⟩
        exact ⟨first, stepped, ih.mpr ⟨next, ran, ran'⟩⟩

theorem run_single : run step state [event] = some last ↔ step state event = some last := by
  rw [run_cons]
  simp

/-- What one step keeps, a run keeps. -/
theorem run_invariant {Invariant : State → Prop} (keeps : ∀ state event next, Invariant state →
    step state event = some next → Invariant next) (start : Invariant state)
    (ran : run step state events = some last) : Invariant last := by
  induction events generalizing state with
  | nil =>
      rw [run_nil, Option.some.injEq] at ran
      rwa [← ran]
  | cons event events ih =>
      obtain ⟨next, stepped, ran⟩ := run_cons.mp ran
      exact ih (keeps state event next start stepped) ran

/-- What one step keeps when it meets a condition, a run keeps when all its steps meet the condition. -/
def Meets (step : State → Event → Option State) (condition : State → Event → Prop) :
    State → List Event → Prop
  | _, [] => True
  | state, event :: events =>
      condition state event ∧ ∀ next, step state event = some next → Meets step condition next events

/-- Whether the steps of a run meet a condition can be computed along the run. -/
def decideMeets {condition : State → Event → Prop} [∀ state event, Decidable (condition state event)] :
    ∀ (state : State) (events : List Event), Decidable (Meets step condition state events)
  | _, [] => isTrue True.intro
  | state, event :: events =>
      match stepped : step state event with
      | none => decidable_of_iff (condition state event) (by simp [Meets, stepped])
      | some next =>
          have : Decidable (Meets step condition next events) := decideMeets next events
          decidable_of_iff (condition state event ∧ Meets step condition next events) (by simp [Meets, stepped])

instance {condition : State → Event → Prop} [∀ state event, Decidable (condition state event)] :
    Decidable (Meets step condition state events) := decideMeets state events

variable {condition : State → Event → Prop}

theorem meets_append : Meets step condition state (events ++ later) ↔ Meets step condition state events ∧
      ∀ next, run step state events = some next → Meets step condition next later := by
  induction events generalizing state with
  | nil => simp [Meets]
  | cons event events ih =>
      simp only [List.cons_append, Meets, ih, run_cons]
      constructor
      · intro ⟨here, behind⟩
        refine ⟨⟨here, fun next stepped => (behind next stepped).1⟩, fun last ⟨next, stepped, ran⟩ => ?_⟩
        exact (behind next stepped).2 last ran
      · intro ⟨⟨here, before⟩, after⟩
        exact ⟨here, fun next stepped => ⟨before next stepped, fun last ran => after last ⟨next, stepped, ran⟩⟩⟩

theorem run_conditional {Invariant : State → Prop}
    (keeps : ∀ state event next, Invariant state → condition state event → step state event = some next → Invariant next)
    (start : Invariant state) (meets : Meets step condition state events) (ran : run step state events = some last) :
    Invariant last := by
  induction events generalizing state with
  | nil =>
      rw [run_nil, Option.some.injEq] at ran
      rwa [← ran]
  | cons event events ih =>
      obtain ⟨next, stepped, ran⟩ := run_cons.mp ran
      obtain ⟨here, behind⟩ := meets
      exact ih (keeps state event next start here stepped) (behind next stepped) ran

section Total

/-- A step that never fails. -/
def total (perform : State → Event → State) (state : State) (event : Event) : Option State :=
  some (perform state event)

/-- An invariant holds in every state that a run reaches. -/
def Always (step : State → Event → Option State) (Invariant : State → Prop) (state : State)
    (events : List Event) : Prop :=
  ∀ before after, events = before ++ after → ∀ reached, run step state before = some reached → Invariant reached

variable {perform : State → Event → State} {Invariant : State → Prop} {condition : State → Event → Prop}

theorem always_cons : Always (total perform) Invariant state (event :: events) ↔
    Invariant state ∧ Always (total perform) Invariant (perform state event) events := by
  constructor
  · intro always
    have here : Invariant state := always [] _ rfl state rfl
    refine ⟨here, fun before after split reached ran => ?_⟩
    exact always (event :: before) after (congrArg (event :: ·) split) reached ran
  · intro ⟨here, behind⟩ before after split reached ran
    cases before with
    | nil =>
        rw [run_nil, Option.some.injEq] at ran
        rwa [← ran]
    | cons first before =>
        obtain ⟨same, split⟩ := List.cons.inj split
        rw [← same] at ran
        exact behind before after split reached ran

theorem meets_total : Meets (total perform) condition state (event :: events) ↔
    condition state event ∧ Meets (total perform) condition (perform state event) events := by
  simp only [Meets, total, Option.some.injEq, forall_eq']

/-- Where each step obeys a law exactly under a condition, and keeps an invariant then, so does a run. -/
theorem meets_iff_meets {law : State → Event → Prop}
    (exact : ∀ state event, Invariant state → (law state event ↔ condition state event))
    (keeps : ∀ state event, Invariant state → condition state event → Invariant (perform state event))
    (start : Invariant state) :
    Meets (total perform) law state events ↔ Meets (total perform) condition state events := by
  induction events generalizing state with
  | nil => exact Iff.rfl
  | cons event events ih =>
      rw [meets_total, meets_total, exact state event start]
      apply and_congr_right
      intro here
      exact ih (keeps state event start here)

/-- Where a step keeps an invariant exactly under a condition, so does a run. -/
theorem always_iff_meets
    (exact : ∀ state event, Invariant state → (Invariant (perform state event) ↔ condition state event))
    (start : Invariant state) :
    Always (total perform) Invariant state events ↔ Meets (total perform) condition state events := by
  induction events generalizing state with
  | nil =>
      refine iff_of_true (fun before after split reached ran => ?_) True.intro
      rw [(List.append_eq_nil_iff.mp split.symm).1, run_nil, Option.some.injEq] at ran
      rwa [← ran]
  | cons event events ih =>
      rw [always_cons, meets_total]
      constructor
      · intro ⟨_, behind⟩
        have next : Invariant (perform state event) := behind [] events rfl _ rfl
        exact ⟨(exact state event start).mp next, (ih next).mp behind⟩
      · intro ⟨here, behind⟩
        exact ⟨start, (ih ((exact state event start).mpr here)).mpr behind⟩

end Total

end Pictor.Transitions

namespace Pictor.Lockstep
open Transitions List

section Layers

variable {Layer Row Error Measure : Type} (push : Layer → Row → Except Error Layer)

/-- The layers take their rows one after another until one refuses. -/
def pushAll : List Layer → List Row → Except Error Unit × List Layer
  | layer :: layers, row :: rows =>
      match push layer row with
      | .error error => (.error error, layer :: layers)
      | .ok next =>
          let (outcome, rest) := pushAll layers rows
          (outcome, next :: rest)
  | layers, _ => (.ok (), layers)

/-- Whether a layer takes a row depends on what a measure tells about the layer, and the measure advances. -/
structure Steady (good : Layer → Prop) (measure : Layer → Measure) (accepts : Measure → Row → Prop)
    (advance : Measure → Measure) : Prop where
  accepted : ∀ layer row, good layer → accepts (measure layer) row →
    ∃ next, push layer row = .ok next ∧ good next ∧ measure next = advance (measure layer)
  refused : ∀ layer row, good layer → ¬ accepts (measure layer) row → ∃ error, push layer row = .error error
  moves : ∀ now, advance now ≠ now

/-- The rows of the tokens for the layer at a place. -/
def column (tokens : List (List Row)) (place : Nat) : List Row := tokens.filterMap fun token => token[place]?

/-- Each layer has taken its rows of the same tokens. -/
structure HoldsTokens (fresh : Layer) (layers : List Layer) (tokens : List (List Row)) : Prop where
  width : ∀ token ∈ tokens, token.length = layers.length
  layer : ∀ place layer, layers[place]? = some layer → (column tokens place).foldlM push fresh = .ok layer

variable {push} {good : Layer → Prop} {measure : Layer → Measure} {accepts : Measure → Row → Prop}
  {advance : Measure → Measure} {layers : List Layer} {rows : List Row} {now : Measure}

/-- All layers take their rows if all are accepted. -/
theorem Steady.pushAll_accepted (steady : Steady push good measure accepts advance)
    (fine : ∀ layer ∈ layers, good layer ∧ measure layer = now) (all : ∀ row ∈ rows, accepts now row)
    (width : rows.length = layers.length) : ∃ later, pushAll push layers rows = (.ok (), later) ∧
      (∀ layer ∈ later, good layer ∧ measure layer = advance now) ∧ later.length = layers.length ∧
      ∀ (place : Nat) (layer : Layer), later[place]? = some layer →
        ∃ before row, layers[place]? = some before ∧ rows[place]? = some row ∧ push before row = .ok layer := by
  induction layers generalizing rows with
  | nil =>
      refine ⟨[], rfl, fun _ none => (nomatch none), rfl, fun _ _ found => ?_⟩
      rw [getElem?_nil] at found
      cases found
  | cons layer layers ih =>
      cases rows with
      | nil => cases width
      | cons row rows =>
          rw [forall_mem_cons] at fine all
          obtain ⟨next, pushed, nextGood, nextMeasure⟩ := steady.accepted layer row fine.1.1
            (by rw [fine.1.2]; exact all.1)
          obtain ⟨later, ran, laterFine, length, each⟩ := ih fine.2 all.2 (Nat.succ.inj width)
          refine ⟨next :: later, ?_, ?_, congrArg (· + 1) length, ?_⟩
          · rw [pushAll, pushed, ran]
          · rw [forall_mem_cons]
            exact ⟨⟨nextGood, by rw [nextMeasure, fine.1.2]⟩, laterFine⟩
          · intro place layer' found
            cases place with
            | zero =>
                rw [getElem?_cons_zero, Option.some.injEq] at found
                exact ⟨layer, row, rfl, rfl, found ▸ pushed⟩
            | succ place => exact each place layer' found

/-- If a row is refused, the layers fail, and the layers before it have changed. -/
theorem Steady.pushAll_refused (steady : Steady push good measure accepts advance)
    (fine : ∀ layer ∈ layers, good layer ∧ measure layer = now) {row : Row} (member : row ∈ rows)
    (refused : ¬ accepts now row) (width : rows.length = layers.length) :
    ∃ error later, pushAll push layers rows = (.error error, later) ∧
      (later = layers ↔ ∀ first ∈ rows.head?, ¬ accepts now first) := by
  induction layers generalizing rows with
  | nil =>
      rw [eq_nil_of_length_eq_zero width] at member
      cases member
  | cons layer layers ih =>
      cases rows with
      | nil => cases width
      | cons first rows =>
          rw [forall_mem_cons] at fine
          simp only [head?_cons, Option.mem_some_iff, forall_eq']
          by_cases accepted : accepts now first
          · obtain ⟨next, pushed, _, nextMeasure⟩ := steady.accepted layer first fine.1.1
              (by rw [fine.1.2]; exact accepted)
            have behind : row ∈ rows := by
              rcases mem_cons.mp member with same | behind
              · rw [same] at refused
                exact absurd accepted refused
              · exact behind
            obtain ⟨error, later, ran, _⟩ := ih fine.2 behind (Nat.succ.inj width)
            refine ⟨error, next :: later, by rw [pushAll, pushed, ran], iff_of_false ?_ (not_not_intro accepted)⟩
            intro same
            rw [(List.cons.inj same).1, fine.1.2] at nextMeasure
            exact steady.moves now nextMeasure.symm
          · obtain ⟨error, failed⟩ := steady.refused layer first fine.1.1 (by rw [fine.1.2]; exact accepted)
            exact ⟨error, layer :: layers, by rw [pushAll, failed], iff_of_true rfl accepted⟩

/-- Layers that take the rows of one more token hold it. -/
theorem HoldsTokens.grow {fresh : Layer} {later : List Layer} {tokens : List (List Row)}
    (holds : HoldsTokens push fresh layers tokens) (length : later.length = layers.length)
    (width : rows.length = layers.length) (each : ∀ (place : Nat) (layer : Layer), later[place]? = some layer →
      ∃ before row, layers[place]? = some before ∧ rows[place]? = some row ∧ push before row = .ok layer) :
    HoldsTokens push fresh later (tokens ++ [rows]) := by
  constructor
  · intro token member
    rw [length]
    rcases mem_append.mp member with old | new
    · exact holds.width token old
    · rw [mem_singleton.mp new, width]
  · intro place layer found
    obtain ⟨before, row, old, new, pushed⟩ := each place layer found
    rw [column, filterMap_append, filterMap_cons, new, filterMap_nil, foldlM_append]
    rw [show tokens.filterMap (fun token => token[place]?) = column tokens place from rfl, holds.layer place before old]
    simp only [foldlM_cons, foldlM_nil, bind_pure]
    exact pushed

/-- If the first row is accepted, then all rows are. -/
def UniformRows (accepts : Row → Prop) (rows : List Row) : Prop :=
  (∀ first ∈ rows.head?, accepts first) → ∀ row ∈ rows, accepts row

/-- The layers have one measure and hold the same tokens. -/
structure Aligned (push : Layer → Row → Except Error Layer) (good : Layer → Prop) (measure : Layer → Measure)
    (fresh : Layer) (layers : List Layer) (now : Measure) (tokens : List (List Row)) : Prop where
  fine : ∀ layer ∈ layers, good layer ∧ measure layer = now
  holds : HoldsTokens push fresh layers tokens

/-- Uniform rows are pushed, or change nothing. Other rows fail and change some layers. -/
theorem Aligned.pushAll {fresh : Layer} {tokens : List (List Row)}
    (aligned : Aligned push good measure fresh layers now tokens) (steady : Steady push good measure accepts advance)
    (width : rows.length = layers.length) :
    (UniformRows (accepts now) rows ∧ ((∃ later, pushAll push layers rows = (.ok (), later) ∧
        later.length = layers.length ∧ Aligned push good measure fresh later (advance now) (tokens ++ [rows])) ∨
      ∃ error, pushAll push layers rows = (.error error, layers))) ∨ (¬ UniformRows (accepts now) rows ∧
      ∃ error later, pushAll push layers rows = (.error error, later) ∧ later ≠ layers) := by
  by_cases all : ∀ row ∈ rows, accepts now row
  · obtain ⟨later, ran, laterFine, length, each⟩ := steady.pushAll_accepted aligned.fine all width
    exact Or.inl ⟨fun _ => all, Or.inl ⟨later, ran, length, laterFine, aligned.holds.grow length width each⟩⟩
  · obtain ⟨row, member, refused⟩ : ∃ row ∈ rows, ¬ accepts now row := by
      by_contra none
      exact all fun row member => Classical.not_not.mp fun refused => none ⟨row, member, refused⟩
    obtain ⟨error, later, ran, unchanged⟩ := steady.pushAll_refused aligned.fine member refused width
    by_cases same : later = layers
    · rw [same] at ran
      refine Or.inl ⟨fun accepted => ?_, Or.inr ⟨error, ran⟩⟩
      cases rows with
      | nil => cases member
      | cons first rows => exact absurd (accepted first rfl) (unchanged.mp same first rfl)
    · refine Or.inr ⟨fun uniform => same (unchanged.mpr fun first here accepted => all (uniform ?_)), error, later, ran, same⟩
      intro other here'
      rw [Option.mem_unique here' here]
      exact accepted

theorem holdsTokens_replicate (fresh : Layer) (count : Nat) :
    HoldsTokens push fresh (List.replicate count fresh) [] := by
  constructor
  · exact fun _ none => (nomatch none)
  · intro place layer found
    rw [eq_of_mem_replicate (mem_of_getElem? found)]
    rfl

end Layers

section Calls

variable {State Call Error : Type} (step : State → Call → Except Error Unit × State)

/-- The state after a call, whether it fails or not. -/
def effect (state : State) (call : Call) : Option State := some (step state call).2

/-- At every moment of a run the state is consistent, and a call that fails changes nothing. -/
def AllOrNothing (consistent : State → Prop) (state : State) (calls : List Call) : Prop :=
  ∀ before after, calls = before ++ after → ∀ reached, run (effect step) state before = some reached →
    consistent reached ∧ ∀ call rest error, after = call :: rest → (step reached call).1 = .error error →
      (step reached call).2 = reached

variable {step} {consistent invariant : State → Prop} {condition : State → Call → Prop}

/-- The calls change all or nothing if and only if each of them meets the condition. -/
theorem allOrNothing_iff (implies : ∀ state, invariant state → consistent state)
    (keeps : ∀ state call, invariant state → condition state call → invariant (step state call).2 ∧
      ∀ error, (step state call).1 = .error error → (step state call).2 = state)
    (breaks : ∀ state call, invariant state → ¬ condition state call →
      (∃ error, (step state call).1 = .error error) ∧ (step state call).2 ≠ state)
    {state : State} (start : invariant state) (calls : List Call) :
    AllOrNothing step consistent state calls ↔ Meets (effect step) condition state calls := by
  constructor
  · intro whole
    induction calls generalizing state with
    | nil => trivial
    | cons call calls ih =>
        have meets : condition state call := by
          by_contra broken
          obtain ⟨⟨error, failed⟩, changed⟩ := breaks state call start broken
          exact changed ((whole [] _ rfl state rfl).2 call calls error rfl failed)
        refine ⟨meets, fun next stepped => ?_⟩
        cases stepped
        refine ih (keeps state call start meets).1 fun before after split reached ran => ?_
        exact whole (call :: before) after (congrArg (call :: ·) split) reached ran
  · intro meets before after split reached ran
    rw [split, meets_append] at meets
    have kept : ∀ state call next, invariant state → condition state call → effect step state call = some next →
        invariant next := by
      intro state call next holds met stepped
      cases stepped
      exact (keeps state call holds met).1
    have holds := run_conditional kept start meets.1 ran
    refine ⟨implies reached holds, fun call rest error first failed => ?_⟩
    have behind := meets.2 reached ran
    rw [first] at behind
    exact (keeps reached call holds behind.1).2 error failed

end Calls

end Pictor.Lockstep
