namespace Pictor.Outcome
open List

variable {Error State Result Next : Type}

theorem ok_bind (result : Result) (second : Result → Except Error Next) : (Except.ok result >>= second) = second result :=
  rfl

variable {first : Except Error Result} {second : Result → Except Error Next} {next : Next} {Item : Type}
  {items : List Item} {state : State} {step : Nat → Except Error Result} {count : Nat} {results : List Result}

/-- A successful sequence has a successful first part. -/
theorem bind_ok (run : (first >>= second) = .ok next) : ∃ result, first = .ok result ∧ second result = .ok next := by
  cases first with
  | error error => cases run
  | ok result => exact ⟨result, rfl, run⟩

theorem bind_eq_ok : (first >>= second) = .ok next ↔ ∃ result, first = .ok result ∧ second result = .ok next := by
  refine ⟨bind_ok, ?_⟩
  rintro ⟨result, rfl, run⟩
  exact run

/-- A loop whose steps succeed and keep a property succeeds and keeps it. -/
theorem foldlM_keeps {holds : State → Prop} {step : State → Item → Except Error State}
    (each : ∀ item ∈ items, ∀ state, holds state → ∃ next, step state item = .ok next ∧ holds next)
    (start : holds state) : ∃ last, items.foldlM step state = .ok last ∧ holds last := by
  induction items generalizing state with
  | nil => exact ⟨state, rfl, start⟩
  | cons item items ih =>
      obtain ⟨next, ran, kept⟩ := each item mem_cons_self state start
      rw [foldlM_cons, ran]
      exact ih (fun other member => each other (mem_cons_of_mem _ member)) kept

/-- The results of a loop over the numbers below a bound, if each step succeeds. -/
theorem mapM_range {good : Nat → Result → Prop}
    (each : ∀ index < count, ∃ result, step index = .ok result ∧ good index result) :
    ∃ results, (List.range count).mapM step = .ok results ∧ results.length = count ∧
      ∀ index < count, ∃ result, results[index]? = some result ∧ good index result := by
  induction count with
  | zero => exact ⟨[], rfl, rfl, fun index below => absurd below (Nat.not_lt_zero index)⟩
  | succ count ih =>
      obtain ⟨results, ran, counted, found⟩ := ih fun index below => each index (Nat.lt_succ_of_lt below)
      obtain ⟨last, ran', good'⟩ := each count (Nat.lt_succ_self count)
      refine ⟨results ++ [last], ?_, ?_, fun index below => ?_⟩
      · rw [List.range_succ, mapM_append, ran, mapM_cons, ran']
        rfl
      · rw [length_append, counted, length_singleton]
      · rcases Nat.lt_succ_iff_lt_or_eq.mp below with earlier | rfl
        · obtain ⟨result, present, fine⟩ := found index earlier
          refine ⟨result, ?_, fine⟩
          rw [getElem?_append_left (by omega), present]
        · refine ⟨last, ?_, good'⟩
          rw [← counted, getElem?_concat_length]

theorem mapM_eq {step : Item → Except Error Result} (ran : items.mapM step = .ok results) :
    items.map step = results.map .ok := by
  induction items generalizing results with
  | nil =>
      cases ran
      rfl
  | cons item items ih =>
      rw [mapM_cons] at ran
      obtain ⟨result, here, rest⟩ := bind_ok ran
      obtain ⟨results, later, same⟩ := bind_ok rest
      cases same
      rw [map_cons, here, ih later, map_cons]

/-- The results of a loop over the numbers below a bound that succeeds. -/
theorem mapM_range_ok (ran : (List.range count).mapM step = .ok results) : results.length = count ∧
      ∀ index < count, ∃ result, results[index]? = some result ∧ step index = .ok result := by
  have all := mapM_eq ran
  refine ⟨by simpa using (congrArg List.length all).symm, fun index below => ?_⟩
  have here := congrArg (fun results => results[index]?) all
  rw [getElem?_map, getElem?_map, getElem?_range below, Option.map_some, eq_comm, Option.map_eq_some_iff] at here
  obtain ⟨result, found, same⟩ := here
  exact ⟨result, found, same.symm⟩

/-- A successful sequence hands the state of its first part to the second one. -/
theorem state_bind_ok {first : StateT State (Except Error) Result} {second : Result → StateT State (Except Error) Next}
    {last : State} (run : (first >>= second) state = .ok (next, last)) :
    ∃ result middle, first state = .ok (result, middle) ∧ second result middle = .ok (next, last) := by
  change (first state >>= fun result => second result.1 result.2) = _ at run
  obtain ⟨⟨result, middle⟩, stage, run⟩ := bind_ok run
  exact ⟨result, middle, stage, run⟩

/-- A computation with fuel ends, and each result is good. -/
def Ends (parser : ExceptT Error Option Result) (good : Result → Prop) : Prop :=
  ∃ outcome, parser.run = some outcome ∧ ∀ result, outcome = .ok result → good result

namespace Ends

variable {good : Result → Prop} {goodNext : Next → Prop}

theorem pure {result : Result} (fine : good result) : Ends (Pure.pure result : ExceptT Error Option Result) good := by
  refine ⟨.ok result, rfl, ?_⟩
  rintro _ ⟨⟩
  exact fine

theorem throw (error : Error) : Ends (throw error : ExceptT Error Option Result) good :=
  ⟨.error error, rfl, fun _ wrong => nomatch wrong⟩

variable {parser : ExceptT Error Option Result}

theorem bind {next : Result → ExceptT Error Option Next} (first : Ends parser good)
    (second : ∀ result, good result → Ends (next result) goodNext) : Ends (parser >>= next) goodNext := by
  obtain ⟨outcome, run, fine⟩ := first
  cases outcome with
  | error error =>
      refine ⟨.error error, ?_, fun _ wrong => nomatch wrong⟩
      rw [ExceptT.run_bind, run]
      rfl
  | ok result =>
      obtain ⟨last, run', fine'⟩ := second result (fine result rfl)
      refine ⟨last, ?_, fine'⟩
      rw [ExceptT.run_bind, run]
      exact run'

theorem mono {weak : Result → Prop} (first : Ends parser good) (weaker : ∀ result, good result → weak result) :
    Ends parser weak := by
  obtain ⟨outcome, run, fine⟩ := first
  exact ⟨outcome, run, fun result same => weaker result (fine result same)⟩

/-- A good result is also a result of the run. -/
theorem withRun (ends : Ends parser good) :
    Ends parser fun result => parser.run = some (.ok result) ∧ good result := by
  obtain ⟨outcome, run, fine⟩ := ends
  refine ⟨outcome, run, ?_⟩
  rintro result rfl
  exact ⟨run, fine result rfl⟩

/-- A step without fuel ends. -/
theorem lift {step : Except Error Result} (fine : ∀ result, step = .ok result → good result) :
    Ends (ExceptT.mk (some step)) good :=
  ⟨step, rfl, fine⟩

theorem result {parser : ExceptT Error Option Result} (ends : Ends parser good) {result : Result}
    (run : parser.run = some (.ok result)) : good result := by
  obtain ⟨outcome, run', fine⟩ := ends
  rw [run] at run'
  exact fine result (Option.some.inj run').symm

end Ends

/-- Each result of a computation with fuel is good. -/
def Yields (parser : ExceptT Error Option Result) (good : Result → Prop) : Prop :=
  ∀ result, parser.run = some (.ok result) → good result

namespace Yields

variable {good : Result → Prop} {goodNext : Next → Prop}

theorem pure {result : Result} (fine : good result) :
    Yields (Pure.pure result : ExceptT Error Option Result) good := by
  rintro _ ⟨⟩
  exact fine

theorem throw (error : Error) : Yields (throw error : ExceptT Error Option Result) good := nofun

variable {parser : ExceptT Error Option Result}

theorem bind {next : Result → ExceptT Error Option Next} (first : Yields parser good)
    (second : ∀ result, good result → Yields (next result) goodNext) : Yields (parser >>= next) goodNext := by
  intro last run
  rw [ExceptT.run_bind] at run
  obtain ⟨outcome, run', stage⟩ := Option.bind_eq_some_iff.mp run
  cases outcome with
  | error error => cases stage
  | ok result => exact second result (first result run') last stage

theorem mono {weak : Result → Prop} (first : Yields parser good) (weaker : ∀ result, good result → weak result) :
    Yields parser weak :=
  fun result run => weaker result (first result run)

end Yields

end Pictor.Outcome
