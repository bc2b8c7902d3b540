import Mathlib.Logic.Basic

namespace Pictor.Incremental
open List

section Answers

variable {Error Result Next : Type}

/-- A reader needs more input, fails, or has a result. -/
abbrev Answer (Error Result : Type) := OptionT (Except Error) Result

def pending : Answer Error Result := OptionT.mk (.ok none)

def failed (error : Error) : Answer Error Result := OptionT.mk (.error error)

/-- An answer of a computation that needs no input. -/
def answered : Except Error Result → Answer Error Result
  | .ok result => pure result
  | .error error => failed error

@[simp] theorem pure_bind (result : Result) (next : Result → Answer Error Next) :
    (pure result >>= next) = next result := rfl

@[simp] theorem pending_bind (next : Result → Answer Error Next) : (pending >>= next) = pending := rfl

@[simp] theorem failed_bind (error : Error) (next : Result → Answer Error Next) :
    (failed error >>= next) = failed error := rfl

theorem pending_ne_pure (result : Result) : (pending : Answer Error Result) ≠ pure result :=
  fun same => nomatch same

theorem failed_ne_pure (error : Error) (result : Result) : failed error ≠ pure result :=
  fun same => nomatch same

theorem pure_inj {result other : Result} (same : (pure result : Answer Error Result) = pure other) : result = other :=
  Option.some.inj (Except.ok.inj same)

theorem answer_cases (answer : Answer Error Result) :
    answer = pending ∨ (∃ error, answer = failed error) ∨ ∃ result, answer = pure result := by
  rcases answer with error | (_ | result)
  · exact Or.inr (Or.inl ⟨error, rfl⟩)
  · exact Or.inl rfl
  · exact Or.inr (Or.inr ⟨result, rfl⟩)

variable {first : Answer Error Result} {next : Result → Answer Error Next}

theorem bind_eq_pure {last : Next} :
    (first >>= next) = pure last ↔ ∃ result, first = pure result ∧ next result = pure last := by
  rcases answer_cases first with rfl | ⟨error, rfl⟩ | ⟨result, rfl⟩
  · simp [pending_ne_pure]
  · simp [failed_ne_pure]
  · constructor
    · intro same
      exact ⟨result, rfl, same⟩
    · rintro ⟨other, same, last⟩
      rw [pure_inj same]
      exact last

/-- An answer that is not pending is kept. -/
def Keeps (first second : Answer Error Result) : Prop := first = pending ∨ first = second

theorem Keeps.refl (answer : Answer Error Result) : Keeps answer answer := Or.inr rfl

theorem Keeps.bind {first' : Answer Error Result} {next' : Result → Answer Error Next} (kept : Keeps first first')
    (keptNext : ∀ result, first = pure result → Keeps (next result) (next' result)) :
    Keeps (first >>= next) (first' >>= next') := by
  rcases kept with rfl | rfl
  · exact Or.inl rfl
  · rcases answer_cases first with rfl | ⟨error, rfl⟩ | ⟨result, rfl⟩
    · exact Or.inl rfl
    · exact Or.inr rfl
    · exact keptNext result rfl

end Answers

section Loop

variable {Error State Item : Type}

/-- The steps until one is pending. -/
def loop (step : State → Answer Error State) : Nat → State → Except Error State
  | 0, state => .ok state
  | fuel + 1, state =>
      match (step state).run with
      | .error error => .error error
      | .ok none => .ok state
      | .ok (some next) => loop step fuel next

/-- All steps. The measure bounds their number. -/
def run (step : State → Answer Error State) (measure : State → Nat) (state : State) : Except Error State :=
  loop step (measure state + 1) state

/-- Steps that shrink the state, and that more input leaves as they are. -/
structure Growing (step : State → Answer Error State) (measure : State → Nat)
    (grow : State → List Item → State) : Prop where
  descends : ∀ {state next}, step state = pure next → measure next < measure state
  grows : ∀ {state next} (more : List Item), step state = pure next → step (grow state more) = pure (grow next more)
  fails : ∀ {state error} (more : List Item), step state = failed error → step (grow state more) = failed error
  appends : ∀ state (first second : List Item), grow (grow state first) second = grow state (first ++ second)

namespace Growing

variable {step : State → Answer Error State} {measure : State → Nat} {grow : State → List Item → State} {state : State}

theorem run_pending (stopped : step state = pending) : run step measure state = .ok state := by
  rw [run, loop, stopped]
  rfl

theorem run_failed {error : Error} (stopped : step state = failed error) : run step measure state = .error error := by
  rw [run, loop, stopped]
  rfl

variable (growing : Growing step measure grow)
include growing

/-- The fuel of the measure is enough. -/
theorem loop_enough {fuel : Nat} (enough : measure state < fuel) : loop step fuel state = run step measure state := by
  have all : ∀ fuel fuel' state, measure state < fuel → measure state < fuel' →
      loop step fuel state = loop step fuel' state := by
    intro fuel
    induction fuel with
    | zero =>
        intro fuel' state below
        omega
    | succ fuel ih =>
        intro fuel' state below below'
        obtain ⟨fuel', rfl⟩ : ∃ less, fuel' = less + 1 := ⟨fuel' - 1, by omega⟩
        rcases answer_cases (step state) with stopped | ⟨error, stopped⟩ | ⟨next, moved⟩
        · rw [loop, loop, stopped]
          rfl
        · rw [loop, loop, stopped]
          rfl
        · have less := growing.descends moved
          rw [loop, loop, moved]
          exact ih fuel' next (by omega) (by omega)
  exact all _ _ state enough (Nat.lt_succ_self _)

theorem run_moved {next : State} (moved : step state = pure next) :
    run step measure state = run step measure next := by
  have less := growing.descends moved
  rw [run, loop, moved]
  exact growing.loop_enough less

/-- What each step keeps, all steps keep. -/
theorem run_invariant {holds : State → Prop} (kept : ∀ state next, holds state → step state = pure next → holds next)
    {state last : State} (start : holds state) (ended : run step measure state = .ok last) : holds last := by
  induction bound : measure state using Nat.strongRecOn generalizing state with
  | _ bound ih =>
      rcases answer_cases (step state) with stopped | ⟨error, stopped⟩ | ⟨next, moved⟩
      · rw [run_pending stopped] at ended
        cases ended
        exact start
      · rw [run_failed stopped] at ended
        cases ended
      · rw [growing.run_moved moved] at ended
        exact ih _ (bound ▸ growing.descends moved) (kept state next start moved) ended rfl

/-- The steps on more input first make the steps on the input. -/
theorem run_grow (state : State) (more : List Item) : run step measure (grow state more) =
      (run step measure state >>= fun last => run step measure (grow last more)) := by
  induction bound : measure state using Nat.strongRecOn generalizing state with
  | _ bound ih =>
      rcases answer_cases (step state) with stopped | ⟨error, stopped⟩ | ⟨next, moved⟩
      · rw [run_pending stopped]
        rfl
      · rw [run_failed stopped, run_failed (growing.fails more stopped)]
        rfl
      · rw [growing.run_moved moved, growing.run_moved (growing.grows more moved)]
        exact ih _ (bound ▸ growing.descends moved) next rfl

/-- The cuts of the input do not matter. -/
theorem feed_flatten (chunks : List (List Item)) (state : State) (first : List Item) :
    (first :: chunks).foldlM (fun state chunk => run step measure (grow state chunk)) state =
      run step measure (grow state (first :: chunks).flatten) := by
  induction chunks generalizing state first with
  | nil =>
      rw [foldlM_cons, flatten_cons, flatten_nil, append_nil]
      exact bind_pure _
  | cons second chunks ih =>
      rw [foldlM_cons, flatten_cons, ← growing.appends, growing.run_grow (grow state first)]
      congr 1
      funext last
      exact ih last second

end Growing

end Loop

end Pictor.Incremental
