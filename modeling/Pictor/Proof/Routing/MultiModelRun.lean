import Pictor.Construction.Routing.MultiModel

namespace Pictor.MultiModel
open List

section Run

inductive Event
  | register (endpoint : ModelEndpoint)
  | unregister (id : ModelId)
  | addAlias (name : String) (target : ModelId)
  | setStatus (id : ModelId) (status : EndpointStatus)

def apply (registry : ModelRegistry) : Event → ModelRegistry
  | .register endpoint => registry.register endpoint
  | .unregister id => (registry.unregister id).1
  | .addAlias name target => registry.addAlias name target
  | .setStatus id status => (registry.setStatus id status).1

/-- The registry after a sequence of calls. -/
def run (events : List Event) : ModelRegistry := events.foldl apply .new

/-- Every endpoint stands under its own identifier, and the default pointer is not stale. -/
structure Coherent (registry : ModelRegistry) : Prop where
  ids : ∀ id endpoint, registry.endpoints.lookup id = some endpoint → endpoint.id = id
  default : ∀ id, registry.defaultModel = some id → (registry.endpoints.lookup id).isSome

variable {registry : ModelRegistry} {endpoint : ModelEndpoint} {id : ModelId}

variable (coherent : Coherent registry)
include coherent

theorem Coherent.insert (endpoint : ModelEndpoint) {aliases : AList fun _ => ModelId} {pointer : Option ModelId}
    (points : ∀ id, pointer = some id → id = endpoint.id ∨ registry.defaultModel = some id) :
    Coherent ⟨registry.endpoints.insert endpoint.id endpoint, aliases, pointer⟩ := by
  constructor
  · intro id other found
    dsimp only at found
    by_cases same : id = endpoint.id
    · rw [same, AList.lookup_insert, Option.some.injEq] at found
      rw [← found, same]
    · rw [AList.lookup_insert_ne same] at found
      exact coherent.ids id other found
  · intro id pointed
    dsimp only
    by_cases same : id = endpoint.id
    · rw [same, AList.lookup_insert]
      rfl
    · rw [AList.lookup_insert_ne same]
      exact coherent.default id ((points id pointed).resolve_left same)

theorem Coherent.register (endpoint : ModelEndpoint) : Coherent (registry.register endpoint) := by
  apply coherent.insert endpoint
  intro id pointed
  split at pointed
  · exact Or.inl (Option.some.inj pointed).symm
  · exact Or.inr pointed

theorem Coherent.unregister (id : ModelId) : Coherent (registry.unregister id).1 := by
  rw [ModelRegistry.unregister]
  split
  case h_1 => exact coherent
  case h_2 removed known =>
    constructor
    · intro other endpoint found
      by_cases same : other = id
      · subst same
        rw [AList.lookup_erase] at found
        cases found
      · rw [AList.lookup_erase_ne same] at found
        exact coherent.ids other endpoint found
    · intro other pointed
      dsimp only at pointed
      split at pointed
      case isTrue => cases pointed
      case isFalse kept =>
        have apart : other ≠ id := fun same => kept (same ▸ pointed)
        rw [AList.lookup_erase_ne apart]
        exact coherent.default other pointed

theorem Coherent.setStatus (id : ModelId) (status : EndpointStatus) : Coherent (registry.setStatus id status).1 := by
  rw [ModelRegistry.setStatus]
  split
  case h_2 => exact coherent
  case h_1 endpoint known =>
    have own := coherent.ids id endpoint known
    subst own
    exact coherent.insert { endpoint with status } fun _ => Or.inr

theorem Coherent.apply (event : Event) : Coherent (apply registry event) := by
  cases event with
  | register endpoint => exact coherent.register endpoint
  | unregister id => exact coherent.unregister id
  | addAlias name target => exact ⟨coherent.ids, coherent.default⟩
  | setStatus id status => exact coherent.setStatus id status

omit coherent

theorem run_coherent (events : List Event) : Coherent (run events) := by
  have start : Coherent .new := ⟨nofun, nofun⟩
  rw [run]
  generalize ModelRegistry.new = registry at start
  induction events generalizing registry with
  | nil => exact start
  | cons event events ih => exact ih _ (start.apply event)

end Run

section Routes

variable {registry : ModelRegistry} {endpoint : ModelEndpoint} {required : Nat} {order : HashOrder ModelId}
  {moment : Nat}

def Registered (registry : ModelRegistry) (endpoint : ModelEndpoint) : Prop :=
  registry.endpoints.lookup endpoint.id = some endpoint

/-- The endpoint can serve a request of this length. -/
def Serves (required : Nat) (endpoint : ModelEndpoint) : Prop :=
  endpoint.status = .ready ∧ required ≤ endpoint.maxContextLength

/-- The endpoint of an identifier, or else of an alias. -/
def Names (registry : ModelRegistry) (name : String) (endpoint : ModelEndpoint) : Prop :=
  registry.endpoints.lookup ⟨name⟩ = some endpoint ∨
    (registry.endpoints.lookup ⟨name⟩ = none ∧
      ∃ target, registry.aliases.lookup name = some target ∧ registry.endpoints.lookup target = some endpoint)

/-- The router finds what exists. -/
structure Routes (order : HashOrder ModelId) (moment : Nat) (registry : ModelRegistry) (required : Nat) : Prop where
  sound : ∀ requested endpoint, (ModelRouter.mk registry).routeForContext order moment requested required = .ok endpoint →
    Registered registry endpoint ∧ Serves required endpoint
  named : ∀ name, (∃ endpoint, (ModelRouter.mk registry).routeForContext order moment (some name) required = .ok endpoint) ↔
    ∃ endpoint, Names registry name endpoint ∧ Serves required endpoint
  unnamed : (∃ endpoint, (ModelRouter.mk registry).routeForContext order moment none required = .ok endpoint) ↔
    ∃ endpoint, Registered registry endpoint ∧ Serves required endpoint

theorem resolve_eq_some {name : String} : registry.resolve name = some endpoint ↔ Names registry name endpoint := by
  rw [ModelRegistry.resolve, Names]
  cases registry.endpoints.lookup ⟨name⟩ with
  | some other => simp
  | none => cases registry.aliases.lookup name <;> simp

theorem isAvailable_iff (status : EndpointStatus) : status.isAvailable = true ↔ status = .ready := decide_eq_true_iff

variable {Element : Type} {requested : Option String}

/-- The larger of two elements, and of equal ones the second. -/
theorem maxByKey_cons (key : Element → Nat) (elements : List Element) (first : Element) :
    ∃ best ∈ first :: elements, maxByKey key (first :: elements) = some best := by
  rw [maxByKey, foldl_cons]
  induction elements generalizing first with
  | nil => exact ⟨first, mem_cons_self, rfl⟩
  | cons element elements ih =>
      rw [foldl_cons]
      dsimp only
      by_cases larger : key first ≤ key element
      · obtain ⟨best, member, found⟩ := ih element
        rw [if_pos larger]
        exact ⟨best, mem_cons_of_mem _ member, found⟩
      · obtain ⟨best, member, found⟩ := ih first
        rw [if_neg larger]
        exact ⟨best, (sublist_cons_self element elements).cons_cons first |>.subset member, found⟩

theorem maxByKey_mem {key : Element → Nat} {elements : List Element} {best : Element}
    (found : maxByKey key elements = some best) : best ∈ elements := by
  cases elements with
  | nil => cases found
  | cons first elements =>
      obtain ⟨other, member, found'⟩ := maxByKey_cons key elements first
      rwa [Option.some.inj (found.symm.trans found')]

theorem maxByKey_isSome {Element : Type} {key : Element → Nat} {elements : List Element} {element : Element}
    (member : element ∈ elements) : ∃ best, maxByKey key elements = some best := by
  cases elements with
  | nil => exact absurd member not_mem_nil
  | cons first elements =>
      obtain ⟨best, _, found⟩ := maxByKey_cons key elements first
      exact ⟨best, found⟩

/-- The endpoint that a request names, or else the default one. -/
def wanted (registry : ModelRegistry) : Option String → Option ModelEndpoint
  | some name => registry.resolve name
  | none => registry.defaultEndpoint

theorem route_eq_ok : (ModelRouter.mk registry).route requested = .ok endpoint ↔
    wanted registry requested = some endpoint ∧ endpoint.status = .ready := by
  have gate (found : ModelEndpoint) : ((if !found.status.isAvailable then
      .error (RoutingError.modelNotReady found.id.value found.status.name) else .ok found) = Except.ok endpoint) ↔
        found = endpoint ∧ endpoint.status = .ready := by
    rw [← isAvailable_iff]
    cases available : found.status.isAvailable with
    | true =>
        simp only [Bool.not_true, if_neg Bool.false_ne_true, Except.ok.injEq]
        exact ⟨fun same => ⟨same, same ▸ available⟩, And.left⟩
    | false =>
        simp only [Bool.not_false, if_pos, reduceCtorEq, false_iff]
        rintro ⟨rfl, other⟩
        rw [available] at other
        cases other
  unfold ModelRouter.route
  cases requested with
  | some name =>
      dsimp only [wanted]
      cases registry.resolve name with
      | none => exact iff_of_false nofun nofun
      | some found =>
          rw [Option.some.injEq]
          exact gate found
  | none =>
      dsimp only [wanted]
      cases registry.defaultEndpoint with
      | none => exact iff_of_false nofun nofun
      | some found =>
          rw [Option.some.injEq]
          exact gate found

theorem mem_fitting (coherent : Coherent registry) :
    endpoint ∈ (registry.availableEndpoints order moment).filter (fun endpoint => required ≤ endpoint.maxContextLength) ↔
      Registered registry endpoint ∧ Serves required endpoint := by
  rw [mem_filter, ModelRegistry.availableEndpoints, mem_filter, isAvailable_iff, decide_eq_true_iff, and_assoc]
  refine and_congr_left fun _ => ?_
  rw [ModelRegistry.allEndpoints, mem_filterMap]
  constructor
  · rintro ⟨id, _, found⟩
    have own := coherent.ids id endpoint found
    rwa [Registered, own]
  · intro registered
    refine ⟨endpoint.id, ?_, registered⟩
    rw [HashOrder.mem, mem_toFinset]
    exact AList.lookup_isSome.mp (Option.isSome_iff_exists.mpr ⟨endpoint, registered⟩)

/-- The largest fitting endpoint stands in for a default endpoint that is too small. -/
theorem routeForContext_eq_ok :
    (ModelRouter.mk registry).routeForContext order moment requested required = .ok endpoint ↔
      ∃ found, wanted registry requested = some found ∧ found.status = .ready ∧
        if required ≤ found.maxContextLength then found = endpoint
        else requested = none ∧ maxByKey ModelEndpoint.maxContextLength ((registry.availableEndpoints order moment).filter
          fun endpoint => required ≤ endpoint.maxContextLength) = some endpoint := by
  rw [ModelRouter.routeForContext]
  cases routed : (ModelRouter.mk registry).route requested with
  | error error =>
      refine iff_of_false nofun ?_
      rintro ⟨found, named, ready, _⟩
      rw [route_eq_ok.mpr ⟨named, ready⟩] at routed
      cases routed
  | ok found =>
      obtain ⟨named, ready⟩ := route_eq_ok.mp routed
      have only : (∃ other, wanted registry requested = some other ∧ other.status = .ready ∧
          if required ≤ other.maxContextLength then other = endpoint
          else requested = none ∧ maxByKey ModelEndpoint.maxContextLength
            ((registry.availableEndpoints order moment).filter fun endpoint =>
              required ≤ endpoint.maxContextLength) = some endpoint) ↔
          if required ≤ found.maxContextLength then found = endpoint
          else requested = none ∧ maxByKey ModelEndpoint.maxContextLength
            ((registry.availableEndpoints order moment).filter fun endpoint =>
              required ≤ endpoint.maxContextLength) = some endpoint := by
        constructor
        · rintro ⟨other, named', _, rest⟩
          rwa [Option.some.inj (named.symm.trans named')]
        · exact fun rest => ⟨found, named, ready, rest⟩
      rw [only]
      change (if found.maxContextLength < required then _ else _) = _ ↔ _
      by_cases enough : required ≤ found.maxContextLength
      · rw [if_neg (Nat.not_lt.mpr enough), if_pos enough, Except.ok.injEq]
      · rw [if_pos (Nat.lt_of_not_le enough), if_neg enough]
        cases requested with
        | some name => exact iff_of_false nofun nofun
        | none =>
            rw [if_neg (by simp)]
            dsimp only
            cases maxByKey ModelEndpoint.maxContextLength _ with
            | none => exact iff_of_false nofun nofun
            | some fallback => simp

theorem wanted_registered (coherent : Coherent registry) (found : wanted registry requested = some endpoint) :
    Registered registry endpoint := by
  have stands {id : ModelId} (there : registry.endpoints.lookup id = some endpoint) : Registered registry endpoint := by
    rwa [Registered, coherent.ids id endpoint there]
  cases requested with
  | some name =>
      rcases resolve_eq_some.mp found with direct | ⟨_, target, _, there⟩
      · exact stands direct
      · exact stands there
  | none =>
      obtain ⟨id, _, there⟩ := Option.bind_eq_some_iff.mp found
      exact stands there

/-- The router finds what exists exactly if the default endpoint is ready or nothing exists to be found. -/
theorem routes_iff (order : HashOrder ModelId) (moment : Nat) (events : List Event) (required : Nat) :
    Routes order moment (run events) required ↔
      (∃ endpoint, (run events).defaultEndpoint = some endpoint ∧ endpoint.status = .ready) ∨
        ¬∃ endpoint, Registered (run events) endpoint ∧ Serves required endpoint := by
  have coherent := run_coherent events
  generalize run events = registry at coherent
  have sound (requested : Option String) (endpoint : ModelEndpoint)
      (routed : (ModelRouter.mk registry).routeForContext order moment requested required = .ok endpoint) :
      Registered registry endpoint ∧ Serves required endpoint := by
    obtain ⟨found, named, ready, rest⟩ := routeForContext_eq_ok.mp routed
    split at rest
    case isTrue enough =>
      subst rest
      exact ⟨wanted_registered coherent named, ready, enough⟩
    case isFalse => exact (mem_fitting coherent).mp (maxByKey_mem rest.2)
  constructor
  · intro routes
    by_cases some : ∃ endpoint, Registered registry endpoint ∧ Serves required endpoint
    · obtain ⟨endpoint, routed⟩ := routes.unnamed.mpr some
      obtain ⟨found, named, ready, _⟩ := routeForContext_eq_ok.mp routed
      exact Or.inl ⟨found, named, ready⟩
    · exact Or.inr some
  · intro condition
    refine ⟨sound, fun name => ⟨?_, ?_⟩, ?_, ?_⟩
    · rintro ⟨endpoint, routed⟩
      obtain ⟨found, named, ready, rest⟩ := routeForContext_eq_ok.mp routed
      split at rest
      case isTrue enough =>
        subst rest
        exact ⟨found, resolve_eq_some.mp named, ready, enough⟩
      case isFalse => cases rest.1
    · rintro ⟨endpoint, named, ready, enough⟩
      exact ⟨endpoint, routeForContext_eq_ok.mpr ⟨endpoint, resolve_eq_some.mpr named, ready, by rw [if_pos enough]⟩⟩
    · rintro ⟨endpoint, routed⟩
      exact ⟨endpoint, sound none endpoint routed⟩
    · rintro ⟨endpoint, fits⟩
      obtain ⟨found, named, ready⟩ := condition.resolve_right (not_not_intro ⟨endpoint, fits⟩)
      by_cases enough : required ≤ found.maxContextLength
      · exact ⟨found, routeForContext_eq_ok.mpr ⟨found, named, ready, by rw [if_pos enough]⟩⟩
      · obtain ⟨best, largest⟩ := @maxByKey_isSome _ ModelEndpoint.maxContextLength _ _
          ((@mem_fitting registry endpoint required order moment coherent).mpr fits)
        exact ⟨best, routeForContext_eq_ok.mpr ⟨found, named, ready, by rw [if_neg enough]; exact ⟨rfl, largest⟩⟩⟩

/-- One ready endpoint is registered, and no model is the default. -/
theorem routes_noDefault : ¬Routes .listed 0 (run [.register ⟨⟨"bonsai-8b"⟩, 4096, false, .ready⟩]) 0 := by
  intro routes
  have there : ∃ endpoint, Registered (run [.register ⟨⟨"bonsai-8b"⟩, 4096, false, .ready⟩]) endpoint ∧
      Serves 0 endpoint := ⟨⟨⟨"bonsai-8b"⟩, 4096, false, .ready⟩, AList.lookup_insert _, rfl, Nat.zero_le _⟩
  obtain ⟨endpoint, routed⟩ := routes.unnamed.mpr there
  obtain ⟨found, named, _⟩ := routeForContext_eq_ok.mp routed
  cases named

end Routes

end Pictor.MultiModel

namespace Pictor.HotReload
open Transitions List

/-- What the readers of the history expect at one moment. -/
structure Follows (shared : Shared) : Prop where
  distinct : shared.recorded.Nodup
  decreasing : shared.coordinator.versions.Pairwise fun first second => second.generation < first.generation
  count : shared.coordinator.versions.length = min shared.coordinator.maxHistory shared.recorded.length
  listed : ∀ version ∈ shared.coordinator.versions, version.generation ∈ shared.recorded
  newest : ∀ generation ∈ shared.recorded,
    generation ∈ shared.coordinator.versions.map ModelVersion.generation ∨
      ∀ version ∈ shared.coordinator.versions, generation < version.generation
  current : ∀ generation ∈ shared.recorded,
    ∃ version, shared.coordinator.currentVersion = some version ∧ generation ≤ version.generation

/-- The current version of a later moment has no smaller generation. -/
def NeverOlder (shared later : Shared) : Prop :=
  ∀ version, shared.coordinator.currentVersion = some version →
    ∃ version', later.coordinator.currentVersion = some version' ∧ version.generation ≤ version'.generation

/-- The history follows the generations at every moment of a run. -/
def HistoryFollows (shared : Shared) (events : List Event) : Prop :=
  ∀ before after, events = before ++ after → ∀ reached, run step shared before = some reached →
    Follows reached ∧ ∀ middle rest, after = middle ++ rest → ∀ later, run step reached middle = some later →
      NeverOlder reached later

/-- The call that enters the section has a larger generation than every recorded one. -/
def InTurn (shared : Shared) : Event → Prop
  | .record call => ∀ version ∈ shared.inFlight[call]?, ∀ generation ∈ shared.recorded,
      generation < version.generation
  | .take _ _ | .read => True

instance decidableNewer (version : ModelVersion) (generations : List Generation) :
    Decidable (∀ generation ∈ generations, generation < version.generation) :=
  List.decidableBAll (· < version.generation) generations

instance : ∀ (shared : Shared) (event : Event), Decidable (InTurn shared event)
  | shared, .record call => @Option.decidableForallMem _ _ (fun version => decidableNewer version shared.recorded)
      shared.inFlight[call]?
  | _, .take _ _ | _, .read => isTrue True.intro

/-- In a run in turn the history holds the last recorded generations, which rise. -/
structure Rising (shared : Shared) : Prop where
  positive : 1 ≤ shared.coordinator.maxHistory
  rising : shared.recorded.Pairwise (· < ·)
  history : shared.coordinator.versionHistory.map ModelVersion.generation =
    shared.recorded.drop (shared.recorded.length - shared.coordinator.maxHistory)

variable {shared next later : Shared} {event : Event} {events : List Event} {maxHistory : Nat}

theorem rising_start (positive : 1 ≤ maxHistory) : Rising (start maxHistory) :=
  ⟨positive, List.Pairwise.nil, drop_nil.symm⟩

theorem rising_step (rising : Rising shared) (turn : InTurn shared event) (stepped : step shared event = some next) :
    Rising next := by
  cases event with
  | take description path =>
      cases stepped
      exact ⟨rising.positive, rising.rising, rising.history⟩
  | read =>
      cases stepped
      exact rising
  | record call =>
      rw [step] at stepped
      cases found : shared.inFlight[call]? with
      | none =>
          rw [found] at stepped
          cases stepped
      | some version =>
          rw [found] at stepped
          cases stepped
          have length := congrArg List.length rising.history
          rw [length_map, length_drop] at length
          have positive := rising.positive
          refine ⟨positive, ?_, ?_⟩
          · rw [pairwise_append]
            refine ⟨rising.rising, pairwise_singleton _ _, fun generation member last here => ?_⟩
            rw [mem_singleton.mp here]
            exact turn version found generation member
          · simp only [HotReloadCoordinator.recordVersion, map_append, map_cons, map_nil,
              length_append, length_singleton]
            by_cases full : shared.coordinator.maxHistory ≤ shared.coordinator.versionHistory.length
            · rw [if_pos ⟨positive, full⟩, map_drop, rising.history, drop_drop,
                drop_append_of_le_length (by omega)]
              congr 2
              omega
            · rw [if_neg fun both => full both.2, rising.history, drop_append_of_le_length (by omega)]
              congr 2
              omega

/-- A rising history is what the readers expect. -/
theorem follows_of_rising (rising : Rising shared) : Follows shared := by
  have whole := take_append_drop (shared.recorded.length - shared.coordinator.maxHistory) shared.recorded
  have order := rising.rising
  rw [← whole, ← rising.history, pairwise_append] at order
  obtain ⟨_, kept, apart⟩ := order
  have length := congrArg List.length rising.history
  rw [length_map, length_drop] at length
  have positive := rising.positive
  have inside {version : ModelVersion} (member : version ∈ shared.coordinator.versions) :
      version.generation ∈ shared.coordinator.versionHistory.map ModelVersion.generation :=
    mem_map_of_mem (mem_reverse.mp member)
  have place {generation : Generation} (member : generation ∈ shared.recorded) :
      generation ∈ shared.recorded.take (shared.recorded.length - shared.coordinator.maxHistory) ∨
        generation ∈ shared.coordinator.versionHistory.map ModelVersion.generation := by
    rw [← whole, mem_append, ← rising.history] at member
    exact member
  refine ⟨?_, ?_, ?_, ?_, ?_, ?_⟩
  · exact rising.rising.imp fun less => UInt64.ne_of_lt less
  · rw [HotReloadCoordinator.versions, pairwise_reverse]
    exact pairwise_map.mp kept
  · rw [HotReloadCoordinator.versions, length_reverse]
    omega
  · intro version member
    have here := inside member
    rw [rising.history] at here
    exact mem_of_mem_drop here
  · intro generation member
    rcases place member with early | late
    · exact Or.inr fun version listed => apart generation early _ (inside listed)
    · refine Or.inl ?_
      rw [HotReloadCoordinator.versions, map_reverse]
      exact mem_reverse.mpr late
  · intro generation member
    have some : shared.coordinator.versionHistory ≠ [] := by
      intro empty
      rw [empty, length_nil] at length
      have more := length_pos_of_mem member
      omega
    refine ⟨_, getLast?_eq_some_getLast some, ?_⟩
    have last := dropLast_concat_getLast some
    rcases place member with early | late
    · exact UInt64.le_of_lt (apart generation early _ (mem_map_of_mem (getLast_mem some)))
    · rw [← last, map_append, pairwise_append] at kept
      rw [← last, map_append, mem_append] at late
      rcases late with late | late
      · exact UInt64.le_of_lt (kept.2.2 generation late _ mem_cons_self)
      · rw [mem_singleton.mp late]
        exact UInt64.le_refl _

/-- A step of any kind forgets no recorded generation. -/
theorem recorded_grow (stepped : step shared event = some next) {generation : Generation}
    (member : generation ∈ shared.recorded) : generation ∈ next.recorded := by
  cases event with
  | take description path =>
      cases stepped
      exact member
  | read =>
      cases stepped
      exact member
  | record call =>
      rw [step] at stepped
      cases found : shared.inFlight[call]? with
      | none =>
          rw [found] at stepped
          cases stepped
      | some version =>
          rw [found] at stepped
          cases stepped
          exact mem_append_left _ member

/-- A call that enters the section in the wrong turn hides a newer version. -/
theorem inTurn_of_follows (follows : ∀ next, step shared event = some next → Follows next) : InTurn shared event := by
  cases event with
  | take description path => trivial
  | read => trivial
  | record call =>
      intro version found generation member
      have stepped : step shared (.record call) = some ⟨shared.coordinator.recordVersion version,
          shared.inFlight.eraseIdx call, shared.recorded ++ [version.generation]⟩ := by
        rw [step, Option.mem_def.mp found]
      have after := follows _ stepped
      obtain ⟨current, last, bound⟩ := after.current generation (mem_append_left _ member)
      have newest : current = version := by
        rw [HotReloadCoordinator.currentVersion, HotReloadCoordinator.recordVersion, getLast?_concat] at last
        exact (Option.some.inj last).symm
      rw [newest] at bound
      have apart := (nodup_append.mp after.distinct).2.2 generation member version.generation
        mem_cons_self
      exact UInt64.lt_of_le_of_ne bound apart

/-- The history follows the generations at every moment of a run if and only if every call enters the section
in the turn of its generation. -/
theorem history_follows (positive : 1 ≤ maxHistory) (events : List Event) :
    HistoryFollows (start maxHistory) events ↔ Meets step InTurn (start maxHistory) events := by
  constructor
  · intro follows
    generalize start maxHistory = shared at follows
    induction events generalizing shared with
    | nil => trivial
    | cons event events ih =>
        refine ⟨inTurn_of_follows fun next stepped => ?_, fun next stepped => ih next ?_⟩
        · exact (follows [event] events rfl next (run_single.mpr stepped)).1
        · intro before after split reached ran
          exact follows (event :: before) after (congrArg (event :: ·) split) reached
            (run_cons.mpr ⟨next, stepped, ran⟩)
  · intro meets before after split reached ran
    rw [split, meets_append] at meets
    have keeps : ∀ shared event next, Rising shared → InTurn shared event → step shared event = some next →
        Rising next := fun _ _ _ rising turn stepped => rising_step rising turn stepped
    have rising := run_conditional keeps (rising_start positive) meets.1 ran
    have behind := meets.2 reached ran
    refine ⟨follows_of_rising rising, fun middle rest parts later continued version current => ?_⟩
    rw [parts, meets_append] at behind
    have risen := run_conditional keeps rising behind.1 continued
    -- The current version was recorded before, and the later current version bounds what was recorded.
    have listed := (follows_of_rising rising).listed version
      (mem_reverse.mpr (mem_of_getLast? current))
    have kept := @run_invariant _ _ _ _ _ _ (fun shared => version.generation ∈ shared.recorded)
      (fun _ _ _ member stepped => recorded_grow stepped member) listed continued
    exact (follows_of_rising risen).current version.generation kept

/-- Two reloads overlap and enter the section in their turn. -/
theorem overlap_follows : HistoryFollows (start 1)
    [.take ['a'] none, .take ['b'] none, .record 0, .read, .record 0] := by
  have turns : Meets step InTurn (start 1) [.take ['a'] none, .take ['b'] none, .record 0, .read, .record 0] := by
    decide
  exact (history_follows (Nat.le_refl 1) _).mpr turns

/-- Two reloads overlap and the second one enters the section first: the older version becomes the current one. -/
theorem overtaken_not_follows : ¬ HistoryFollows (start 2)
    [.take ['a'] none, .take ['b'] none, .record 1, .record 0] := by
  intro follows
  have ran : run step (start 2) [.take ['a'] none, .take ['b'] none, .record 1, .record 0] =
      some ⟨⟨2, [⟨2, none, ['b']⟩, ⟨1, none, ['a']⟩], 2⟩, [], [2, 1]⟩ := rfl
  have decreasing := (follows _ [] (append_nil _).symm _ ran).1.decreasing
  revert decreasing
  decide

end Pictor.HotReload
