import Mathlib.Algebra.BigOperators.Group.List.Basic
import Pictor.Construction.Resilience.RequestQueue
import Pictor.Library.Transitions

namespace Pictor.EnginePool
open Transitions List

variable {Engine : Type}

/-- A call waits for a permit, has one, holds an engine, or has returned its engine. -/
inductive Task (Engine : Type) where
  | waiting
  | granted
  | leased (engine : Engine)
  | returned

/-- The steps of a call. A call may be cancelled until it takes its engine. -/
inductive Event where
  | acquire
  | grant (place : Nat)
  | cancel (place : Nat)
  | take (place : Nat)
  | give (place : Nat)
  | release (place : Nat)

namespace Task

def permits : Task Engine → Nat
  | .waiting => 0
  | _ => 1

def engine? : Task Engine → Option Engine
  | .leased engine => some engine
  | _ => none

end Task

/-- The pool, the calls in progress, and the errors that calls returned. -/
structure Served (Engine : Type) where
  pool : EnginePool Engine
  tasks : List (Task Engine)
  errors : List PoolError

namespace Served

def start (engines : List Engine) : Served Engine := ⟨new engines, [], []⟩

def step (served : Served Engine) : Event → Option (Served Engine)
  | .acquire => some { served with tasks := served.tasks ++ [.waiting] }
  | .grant place =>
      match served.tasks[place]? with
      | some .waiting => served.pool.grant.map fun pool =>
          { served with pool, tasks := served.tasks.set place .granted }
      | _ => none
  | .cancel place =>
      match served.tasks[place]? with
      | some .waiting => some { served with tasks := served.tasks.eraseIdx place }
      | some .granted => some { served with pool := served.pool.release, tasks := served.tasks.eraseIdx place }
      | _ => none
  | .take place =>
      match served.tasks[place]? with
      | some .granted =>
          match served.pool.popIdle with
          | .ok (engine, pool) => some { served with pool, tasks := served.tasks.set place (.leased engine) }
          | .error error => some
              { pool := served.pool.release, tasks := served.tasks.eraseIdx place, errors := served.errors ++ [error] }
      | _ => none
  | .give place =>
      match served.tasks[place]? with
      | some (.leased engine) => some
          { served with pool := served.pool.pushIdle engine, tasks := served.tasks.set place .returned }
      | _ => none
  | .release place =>
      match served.tasks[place]? with
      | some .returned => some { served with pool := served.pool.release, tasks := served.tasks.eraseIdx place }
      | _ => none

/-- The engines of the outstanding leases. -/
def leases (served : Served Engine) : List Engine := served.tasks.filterMap Task.engine?

def permits (served : Served Engine) : Nat := (served.tasks.map Task.permits).sum

/-- Each engine is idle or leased, each permit is free or held, and no call failed. -/
structure Conserved (engines : List Engine) (served : Served Engine) : Prop where
  places : (served.leases ++ served.pool.idle).Perm engines
  held : served.pool.permits + served.permits = engines.length
  size : served.pool.size = engines.length
  errors : served.errors = []

variable {engines : List Engine} {served next : Served Engine} {place : Nat} {task other : Task Engine}

/-- A task stands between the tasks before it and those behind it. -/
theorem split_tasks (found : served.tasks[place]? = some task) : ∃ front back, served.tasks = front ++ task :: back ∧
      (∀ other, served.tasks.set place other = front ++ other :: back) ∧
      served.tasks.eraseIdx place = front ++ back := by
  obtain ⟨inside, same⟩ := List.getElem?_eq_some_iff.mp found
  have size : (served.tasks.take place).length = place := length_take_of_le (Nat.le_of_lt inside)
  refine ⟨served.tasks.take place, served.tasks.drop (place + 1), ?_, ?_, ?_⟩
  · rw [← same, getElem_cons_drop, take_append_drop]
  · intro other
    rw [set_eq_take_append_cons_drop, if_pos inside]
  · exact eraseIdx_eq_take_drop_succ _ _

theorem leases_split (front later back : List (Task Engine)) (idle : List Engine) :
    ((front ++ later ++ back).filterMap Task.engine? ++ idle).Perm
      (front.filterMap Task.engine? ++ back.filterMap Task.engine? ++ (later.filterMap Task.engine? ++ idle)) := by
  rw [filterMap_append, filterMap_append, append_assoc, append_assoc, append_assoc]
  apply List.Perm.append_left
  rw [← append_assoc, ← append_assoc]
  exact perm_append_comm.append_right idle

theorem permits_split (front later back : List (Task Engine)) : ((front ++ later ++ back).map Task.permits).sum =
      ((front ++ back).map Task.permits).sum + (later.map Task.permits).sum := by
  simp only [map_append, List.sum_append]
  omega

/-- A step of one call keeps the engines and the permits if the call and the pool do so together. -/
theorem Conserved.replace (conserved : Conserved engines served) {front later back : List (Task Engine)}
    (split : served.tasks = front ++ task :: back) (replaced : next.tasks = front ++ later ++ back)
    (places : (later.filterMap Task.engine? ++ next.pool.idle).Perm (task.engine?.toList ++ served.pool.idle))
    (held : next.pool.permits + (later.map Task.permits).sum = served.pool.permits + task.permits)
    (size : next.pool.size = served.pool.size) (errors : next.errors = served.errors) : Conserved engines next := by
  rw [← singleton_append, ← append_assoc] at split
  have single : [task].filterMap Task.engine? = task.engine?.toList := by cases task <;> rfl
  constructor
  · have before := conserved.places
    rw [leases, split] at before
    rw [leases, replaced]
    have after := leases_split front later back next.pool.idle
    have old := leases_split front [task] back served.pool.idle
    rw [single] at old
    exact after.trans (((List.Perm.append_left _ places).trans old.symm).trans before)
  · have before := conserved.held
    rw [permits, split, permits_split, map_singleton, sum_singleton] at before
    rw [permits, replaced, permits_split]
    omega
  · rw [size, conserved.size]
  · rw [errors, conserved.errors]

/-- Each lease holds a permit. -/
theorem leases_le_permits (tasks : List (Task Engine)) :
    (tasks.filterMap Task.engine?).length ≤ (tasks.map Task.permits).sum := by
  induction tasks with
  | nil => exact Nat.zero_le _
  | cons task tasks ih =>
      rw [map_cons, sum_cons]
      cases task with
      | leased engine =>
          change (tasks.filterMap Task.engine?).length + 1 ≤ 1 + _
          omega
      | waiting => exact Nat.le_add_left_of_le ih
      | granted => exact Nat.le_add_left_of_le ih
      | returned => exact Nat.le_add_left_of_le ih

/-- A call with a permit and without an engine finds an idle engine. -/
theorem Conserved.idle (conserved : Conserved engines served) (found : served.tasks[place]? = some .granted) :
    served.pool.idle ≠ [] := by
  intro empty
  obtain ⟨front, back, split, _⟩ := split_tasks found
  rw [← singleton_append, ← append_assoc] at split
  have all := conserved.places.length_eq
  have held := conserved.held
  have fewer := leases_le_permits (front ++ back)
  rw [empty, append_nil, leases, split, filterMap_append, filterMap_append] at all
  rw [permits, split, permits_split] at held
  rw [filterMap_append] at fewer
  change (front.filterMap Task.engine? ++ [] ++ back.filterMap Task.engine?).length = _ at all
  change _ + (_ + 1) = _ at held
  rw [append_nil] at all
  omega

theorem Conserved.step (conserved : Conserved engines served) {event : Event}
    (stepped : served.step event = some next) : Conserved engines next := by
  cases event with
  | acquire =>
      cases stepped
      obtain ⟨places, held, size, errors⟩ := conserved
      constructor
      · rw [leases, filterMap_append]
        change (_ ++ [] ++ _).Perm _
        rwa [append_nil]
      · rw [permits, map_append, List.sum_append]
        exact held
      · exact size
      · exact errors
  | grant place =>
      rw [Served.step] at stepped
      split at stepped
      case h_1 found =>
        rw [EnginePool.grant] at stepped
        split at stepped
        case isTrue positive =>
          cases stepped
          obtain ⟨front, back, split, replaced, _⟩ := split_tasks found
          refine conserved.replace split ((replaced .granted).trans (append_cons front _ back)) (List.Perm.refl _)
            ?_ rfl rfl
          change served.pool.permits - 1 + 1 = served.pool.permits
          omega
        case isFalse => cases stepped
      case h_2 => cases stepped
  | cancel place =>
      rw [Served.step] at stepped
      split at stepped
      case h_1 found =>
        cases stepped
        obtain ⟨front, back, split, _, removed⟩ := split_tasks found
        exact @Conserved.replace _ _ _ _ _ conserved front [] back split
          (removed.trans (congrArg (· ++ back) (append_nil front).symm)) (List.Perm.refl _) rfl rfl rfl
      case h_2 found =>
        cases stepped
        obtain ⟨front, back, split, _, removed⟩ := split_tasks found
        exact @Conserved.replace _ _ _ _ _ conserved front [] back split
          (removed.trans (congrArg (· ++ back) (append_nil front).symm)) (List.Perm.refl _) rfl rfl rfl
      case h_3 => cases stepped
  | take place =>
      rw [Served.step] at stepped
      split at stepped
      case h_1 found =>
        have last := getLast?_eq_some_getLast (conserved.idle found)
        generalize served.pool.idle.getLast (conserved.idle found) = engine at last
        rw [EnginePool.popIdle, last] at stepped
        cases stepped
        obtain ⟨front, back, split, replaced, _⟩ := split_tasks found
        refine conserved.replace split ((replaced (.leased engine)).trans (append_cons front _ back)) ?_ rfl rfl rfl
        have whole := dropLast_append_getLast? engine last
        change ([engine] ++ served.pool.idle.dropLast).Perm served.pool.idle
        rw [← whole, dropLast_concat]
        exact perm_append_comm
      case h_2 => cases stepped
  | give place =>
      rw [Served.step] at stepped
      split at stepped
      case h_1 engine found =>
        cases stepped
        obtain ⟨front, back, split, replaced, _⟩ := split_tasks found
        refine conserved.replace split ((replaced .returned).trans (append_cons front _ back)) ?_ rfl rfl rfl
        change ([] ++ (served.pool.idle ++ [engine])).Perm ([engine] ++ served.pool.idle)
        rw [nil_append]
        exact perm_append_comm
      case h_2 => cases stepped
  | release place =>
      rw [Served.step] at stepped
      split at stepped
      case h_1 found =>
        cases stepped
        obtain ⟨front, back, split, _, removed⟩ := split_tasks found
        exact @Conserved.replace _ _ _ _ _ conserved front [] back split
          (removed.trans (congrArg (· ++ back) (append_nil front).symm)) (List.Perm.refl _) rfl rfl rfl
      case h_2 => cases stepped

/-- In every run the leases and the idle engines are the engines of the pool, and no call finds the pool empty. -/
theorem run_conserved (nonempty : engines ≠ []) {events : List Event}
    (ran : run step (start engines) events = some served) :
    served.leases.length + served.pool.idle.length = served.pool.size ∧
      (served.leases ++ served.pool.idle).Perm engines ∧ .empty ∉ served.errors := by
  have positive := length_pos_of_ne_nil nonempty
  have fresh : Conserved engines (start engines) := by
    constructor
    · exact List.Perm.refl _
    · exact Nat.max_eq_left positive
    · exact Nat.max_eq_left positive
    · rfl
  obtain ⟨places, _, size, errors⟩ := run_invariant (fun _ _ _ conserved => conserved.step) fresh ran
  refine ⟨?_, places, ?_⟩
  · rw [← length_append, places.length_eq, size]
  · rw [errors]
    exact not_mem_nil

/-- Two calls share one engine, and one of them is cancelled while it waits. -/
theorem sharedEngine_conserved : ∃ served : Served Nat,
    run step (start [7]) [.acquire, .acquire, .grant 0, .take 0, .cancel 1, .acquire, .give 0, .release 0, .grant 0,
      .take 0] = some served ∧ served.leases.length + served.pool.idle.length = served.pool.size ∧
      (served.leases ++ served.pool.idle).Perm [7] ∧ .empty ∉ served.errors := by
  have ran : run step (start [7]) [.acquire, .acquire, .grant 0, .take 0, .cancel 1, .acquire, .give 0, .release 0,
      .grant 0, .take 0] = some ⟨⟨[], 0, 1⟩, [.leased 7], []⟩ := rfl
  exact ⟨_, ran, run_conserved (cons_ne_nil 7 []) ran⟩

end Served

end Pictor.EnginePool

namespace Pictor.BoundedQueue
open Transitions List

variable {Item : Type}

/-- A thread waits for room with its item, or for an item. -/
inductive Waiter (Item : Type) where
  | push (item : Item)
  | pop

/-- What a call returns. -/
inductive Answer (Item : Type) where
  | pushed (item : Item) (accepted : Bool)
  | popped (item : Option Item)
  | drained (items : List Item)

/-- The items that an answer let into the queue. -/
def Answer.entered : Answer Item → List Item
  | .pushed item true => [item]
  | _ => []

/-- The items that left the queue with an answer. -/
def Answer.leaving : Answer Item → List Item
  | .popped item => item.toList
  | .drained items => items
  | .pushed _ _ => []

/-- A thread enters a call, or a waiting thread wakes up at any moment. -/
inductive Event (Item : Type) where
  | tryPush (item : Item)
  | pushTimeout (item : Item) (expired : Bool)
  | pop
  | popTimeout (expired : Bool)
  | drain
  | wake (place : Nat) (timedOut expired : Bool)

/-- The queue, the waiting threads, and the answers so far with the length of the queue at their moment. -/
structure Shared (Item : Type) where
  queue : BoundedQueue Item
  waiting : List (Waiter Item)
  history : List (Answer Item × Nat)

namespace Shared

def start (queue : BoundedQueue Item) : Shared Item := ⟨queue, [], []⟩

def answered (shared : Shared Item) (queue : BoundedQueue Item) (answer : Answer Item) : Shared Item :=
  { shared with queue, history := shared.history ++ [(answer, shared.queue.queue.length)] }

def push (shared : Shared Item) (item : Item) : Option Bool × BoundedQueue Item → Shared Item
  | (some accepted, queue) => shared.answered queue (.pushed item accepted)
  | (none, queue) => { shared with queue, waiting := shared.waiting ++ [.push item] }

def pop (shared : Shared Item) : Option (Option Item) × BoundedQueue Item → Shared Item
  | (some item, queue) => shared.answered queue (.popped item)
  | (none, queue) => { shared with queue, waiting := shared.waiting ++ [.pop] }

def wake (shared : Shared Item) (place : Nat) (timedOut expired : Bool) : Option (Shared Item) :=
  shared.waiting[place]?.map fun waiter =>
    let others := { shared with waiting := shared.waiting.eraseIdx place }
    match waiter with
    | .push item => others.push item (shared.queue.pushWoken item timedOut expired)
    | .pop => others.pop (shared.queue.popWoken timedOut expired)

def step (shared : Shared Item) : Event Item → Option (Shared Item)
  | .tryPush item =>
      let (accepted, queue) := shared.queue.tryPush item
      some (shared.answered queue (.pushed item accepted))
  | .pushTimeout item expired => some (shared.push item (shared.queue.pushTimeout item expired))
  | .pop =>
      let (item, queue) := shared.queue.pop
      some (shared.answered queue (.popped item))
  | .popTimeout expired => some (shared.pop (shared.queue.popTimeout expired))
  | .drain =>
      let (items, queue) := shared.queue.drain
      some (shared.answered queue (.drained items))
  | .wake place timedOut expired => shared.wake place timedOut expired

/-- The items that were accepted, in the order of their acceptance. -/
def accepted (shared : Shared Item) : List Item := shared.history.flatMap fun entry => entry.1.entered

/-- The items that left the queue, in the order in which they left. -/
def left (shared : Shared Item) : List Item := shared.history.flatMap fun entry => entry.1.leaving

/-- Items are neither lost nor duplicated and leave in their order, the queue stays in its bounds, and a pop without an
item met an empty queue. -/
structure Lossless (shared : Shared Item) : Prop where
  order : shared.accepted = shared.left ++ shared.queue.queue
  bounded : shared.queue.queue.length ≤ shared.queue.capacity
  counted : shared.queue.totalEnqueued =
    shared.queue.totalDequeued + UInt64.ofNat shared.queue.queue.length
  emptied : ∀ length, (Answer.popped none, length) ∈ shared.history → length = 0

/-- A push that was refused met a full queue. -/
def RefusedFull (shared : Shared Item) : Prop :=
  ∀ item length, (Answer.pushed item false, length) ∈ shared.history → shared.queue.capacity ≤ length

/-- A waiting push does not time out while the queue has room. -/
def NoLateRoom (shared : Shared Item) : Event Item → Prop
  | .wake place true _ =>
      ∀ item, shared.waiting[place]? = some (.push item) → shared.queue.capacity ≤ shared.queue.queue.length
  | _ => True

variable {shared next : Shared Item}

/-- An answer of the queue: what it does to the items, the counters and the bounds. -/
structure Kept (queue : BoundedQueue Item) (answer : Answer Item) (next : BoundedQueue Item) : Prop where
  capacity : next.capacity = queue.capacity
  order : queue.queue ++ answer.entered = answer.leaving ++ next.queue
  bounded : queue.queue.length ≤ queue.capacity → next.queue.length ≤ next.capacity
  counted : queue.totalEnqueued = queue.totalDequeued + UInt64.ofNat queue.queue.length →
    next.totalEnqueued = next.totalDequeued + UInt64.ofNat next.queue.length
  emptied : answer = .popped none → queue.queue.length = 0

end Shared

theorem kept_accept {queue : BoundedQueue Item} (room : queue.queue.length < queue.capacity) (item : Item) :
    Shared.Kept queue (.pushed item true) (queue.accept item) where
  capacity := rfl
  order := rfl
  bounded _ := by
    rw [accept, length_append, length_singleton]
    exact room
  counted same := by
    rw [accept, length_append, length_singleton, same, UInt64.ofNat_add, UInt64.add_assoc]
    rfl
  emptied impossible := (nomatch impossible)

variable (queue : BoundedQueue Item)
include queue

theorem kept_refuse (item : Item) : Shared.Kept queue (.pushed item false) queue.refuse where
  capacity := rfl
  order := append_nil _
  bounded := id
  counted := id
  emptied impossible := (nomatch impossible)

theorem kept_tryPush (item : Item) : Shared.Kept queue (.pushed item (queue.tryPush item).1) (queue.tryPush item).2 ∧
      ((queue.tryPush item).1 = false → queue.capacity ≤ queue.queue.length) := by
  rw [tryPush]
  by_cases full : queue.capacity ≤ queue.queue.length
  · rw [if_pos full]
    exact ⟨kept_refuse queue item, fun _ => full⟩
  · rw [if_neg full]
    exact ⟨kept_accept (Nat.not_le.mp full) item, fun impossible => (nomatch impossible)⟩

theorem kept_pop : Shared.Kept queue (.popped queue.pop.1) queue.pop.2 := by
  rw [pop]
  cases items : queue.queue with
  | nil =>
      constructor
      · rfl
      · rw [items]
        rfl
      · exact id
      · exact id
      · intro _
        rw [items]
        rfl
  | cons item rest =>
      constructor
      · rfl
      · rw [items]
        exact append_nil _
      · intro bounded
        rw [items, length_cons] at bounded
        exact Nat.le_of_succ_le bounded
      · intro same
        change queue.totalEnqueued = queue.totalDequeued + 1 + UInt64.ofNat rest.length
        rw [same, items, length_cons, UInt64.ofNat_add, UInt64.add_assoc, UInt64.add_comm 1]
        rfl
      · exact fun impossible => (nomatch impossible)

theorem kept_drain : Shared.Kept queue (.drained queue.drain.1) queue.drain.2 where
  capacity := rfl
  order := rfl
  bounded _ := Nat.zero_le _
  counted same := by
    change queue.totalEnqueued = queue.totalDequeued + UInt64.ofNat queue.queue.length + 0
    rw [same, UInt64.add_zero]
  emptied impossible := (nomatch impossible)

omit queue

namespace Shared

variable {shared next : Shared Item} {queue : BoundedQueue Item} {answer : Answer Item}

theorem Lossless.answered (lossless : Lossless shared) (kept : Kept shared.queue answer queue) :
    Lossless (shared.answered queue answer) := by
  obtain ⟨order, bounded, counted, emptied⟩ := lossless
  constructor
  · rw [accepted, left] at order ⊢
    rw [Shared.answered, flatMap_append, flatMap_append, order, flatMap_singleton,
      flatMap_singleton, append_assoc, kept.order, append_assoc]
  · exact kept.bounded bounded
  · exact kept.counted counted
  · intro length member
    rcases mem_append.mp member with old | new
    · exact emptied length old
    · obtain ⟨same, rfl⟩ := Prod.mk.inj (mem_singleton.mp new)
      exact kept.emptied same.symm

/-- An answer keeps the refusals right exactly if it is no refusal with room. -/
theorem refusedFull_answered (capacity : queue.capacity = shared.queue.capacity) :
    RefusedFull (shared.answered queue answer) ↔ RefusedFull shared ∧
      ∀ item, answer = .pushed item false → shared.queue.capacity ≤ shared.queue.queue.length := by
  rw [RefusedFull, RefusedFull, Shared.answered, capacity]
  constructor
  · intro full
    refine ⟨fun item length member => full item length (mem_append_left _ member), ?_⟩
    intro item refused
    exact full item _ (mem_append_right _ (mem_singleton.mpr (by rw [refused])))
  · intro ⟨full, last⟩ item length member
    rcases mem_append.mp member with old | new
    · exact full item length old
    · obtain ⟨same, rfl⟩ := Prod.mk.inj (mem_singleton.mp new)
      exact last item same.symm

/-- What one step does: it keeps the items and the counters, and its refusals are right under the condition. -/
structure StepFacts (shared next : Shared Item) (condition : Prop) : Prop where
  lossless : Lossless shared → Lossless next
  refused : RefusedFull next ↔ RefusedFull shared ∧ condition

theorem stepFacts_answered (kept : Kept shared.queue answer queue) {condition : Prop}
    (refused : (∀ item, answer = .pushed item false → shared.queue.capacity ≤ shared.queue.queue.length) ↔ condition) :
    StepFacts shared (shared.answered queue answer) condition where
  lossless lossless := lossless.answered kept
  refused := by rw [refusedFull_answered kept.capacity, refused]

theorem stepFacts_waits (waiting : List (Waiter Item)) : StepFacts shared { shared with waiting } True where
  lossless lossless := ⟨lossless.order, lossless.bounded, lossless.counted, lossless.emptied⟩
  refused := (and_iff_left True.intro).symm

theorem stepFacts_pushTimeout (shared : Shared Item) (item : Item) (expired : Bool) :
    StepFacts shared (shared.push item (shared.queue.pushTimeout item expired)) True := by
  rw [pushTimeout]
  by_cases room : shared.queue.queue.length < shared.queue.capacity
  · rw [if_pos room]
    exact stepFacts_answered (kept_accept room item) (iff_true_intro fun _ impossible => (nomatch impossible))
  · rw [if_neg room]
    cases expired with
    | true => exact stepFacts_answered (kept_refuse _ item) (iff_true_intro fun _ _ => Nat.not_lt.mp room)
    | false => exact stepFacts_waits _

theorem stepFacts_popTimeout (shared : Shared Item) (expired : Bool) :
    StepFacts shared (shared.pop (shared.queue.popTimeout expired)) True := by
  have kept := kept_pop shared.queue
  rw [popTimeout]
  generalize popped : shared.queue.pop = result at kept
  obtain ⟨item, rest⟩ := result
  cases item with
  | some item => exact stepFacts_answered kept (iff_true_intro fun _ impossible => (nomatch impossible))
  | none =>
      have same : rest = shared.queue := by
        rw [BoundedQueue.pop] at popped
        split at popped
        case h_1 => exact (Prod.mk.inj popped).2.symm
        case h_2 => cases (Prod.mk.inj popped).1
      rw [same] at kept
      cases expired with
      | true => exact stepFacts_answered kept (iff_true_intro fun _ impossible => (nomatch impossible))
      | false => exact stepFacts_waits _

theorem StepFacts.others {condition : Prop} {waiting : List (Waiter Item)}
    (facts : StepFacts { shared with waiting } next condition) : StepFacts shared next condition where
  lossless lossless := facts.lossless ((stepFacts_waits waiting).lossless lossless)
  refused := facts.refused

theorem step_facts {event : Event Item} (stepped : shared.step event = some next) :
    StepFacts shared next (NoLateRoom shared event) := by
  cases event with
  | tryPush item =>
      cases stepped
      obtain ⟨kept, refused⟩ := kept_tryPush shared.queue item
      exact stepFacts_answered kept (iff_true_intro fun _ same => refused (Answer.pushed.inj same).2)
  | pushTimeout item expired =>
      cases stepped
      exact stepFacts_pushTimeout shared item expired
  | pop =>
      cases stepped
      exact stepFacts_answered (kept_pop shared.queue) (iff_true_intro fun _ impossible => (nomatch impossible))
  | popTimeout expired =>
      cases stepped
      exact stepFacts_popTimeout shared expired
  | drain =>
      cases stepped
      exact stepFacts_answered (kept_drain shared.queue) (iff_true_intro fun _ impossible => (nomatch impossible))
  | wake place timedOut expired =>
      rw [step, wake, Option.map_eq_some_iff] at stepped
      obtain ⟨waiter, found, rfl⟩ := stepped
      apply StepFacts.others
      cases waiter with
      | push item =>
          cases timedOut with
          | true =>
              have facts := @stepFacts_answered _ { shared with waiting := shared.waiting.eraseIdx place } _ _
                (kept_refuse shared.queue item) (NoLateRoom shared (.wake place true expired))
              apply facts
              rw [NoLateRoom, found]
              constructor
              · intro full other _
                exact full item rfl
              · intro full other _
                exact full item rfl
          | false => exact stepFacts_pushTimeout { shared with waiting := _ } item expired
      | pop =>
          have trivially : NoLateRoom shared (.wake place timedOut expired) ↔ True := by
            apply iff_true_intro
            cases timedOut with
            | true =>
                rw [NoLateRoom, found]
                exact fun _ impossible => (nomatch impossible)
            | false => exact True.intro
          rw [trivially]
          dsimp only
          rw [popWoken]
          by_cases empty : timedOut = true ∧ shared.queue.queue.isEmpty = true
          · rw [if_pos empty]
            have nothing := List.isEmpty_iff.mp empty.2
            have kept : Kept shared.queue (.popped none) shared.queue := by
              have kept := kept_pop shared.queue
              rw [BoundedQueue.pop, nothing] at kept
              exact kept
            exact @stepFacts_answered _ { shared with waiting := shared.waiting.eraseIdx place } _ _ kept _
              (iff_true_intro fun _ impossible => (nomatch impossible))
          · rw [if_neg empty]
            exact stepFacts_popTimeout { shared with waiting := _ } expired

/-- The items, the bounds and the counters are right in every run, and the refusals are right exactly if no waiting push
times out while the queue has room. -/
theorem run_exact {events : List (Event Item)} (ran : run step shared events = some next)
    (lossless : Lossless shared) :
    Lossless next ∧ (RefusedFull next ↔ RefusedFull shared ∧ Meets step NoLateRoom shared events) := by
  induction events generalizing shared with
  | nil =>
      rw [run_nil, Option.some.injEq] at ran
      rw [← ran]
      exact ⟨lossless, (and_iff_left True.intro).symm⟩
  | cons event events ih =>
      obtain ⟨middle, stepped, rest⟩ := run_cons.mp ran
      obtain ⟨kept, refused⟩ := step_facts stepped
      obtain ⟨lossless', refused'⟩ := ih rest (kept lossless)
      refine ⟨lossless', ?_⟩
      rw [refused', refused, and_assoc]
      apply and_congr_right
      intro _
      apply and_congr_right
      intro _
      constructor
      · intro meets other same
        rw [stepped] at same
        cases same
        exact meets
      · exact fun meets => meets middle stepped

/-- The queue is a lossless queue whose refusals met a full queue exactly if no waiting push times out while the queue
has room. -/
theorem run_lossless {capacity : Nat} {queue : BoundedQueue Item} (made : new Item capacity = some queue)
    {events : List (Event Item)} (ran : run step (start queue) events = some next) :
    Lossless next ∧ RefusedFull next ↔ Meets step NoLateRoom (start queue) events := by
  have fresh : Lossless (start queue) := by
    rw [new] at made
    split at made
    case isTrue =>
      cases made
      exact ⟨rfl, Nat.zero_le _, rfl, fun _ none => (nomatch none)⟩
    case isFalse => cases made
  obtain ⟨lossless, refused⟩ := run_exact ran fresh
  rw [and_iff_right lossless, refused]
  exact and_iff_right fun _ _ none => (nomatch none)

/-- A push waits for room, another thread makes room, and the wait times out before the thread has the lock again. -/
def lateEvents : List (Event Nat) := [.tryPush 1, .pushTimeout 2 false, .pop, .wake 0 true false]

/-- The push is refused although the queue is empty. -/
theorem lateEvents_refused : ∃ queue next, new Nat 1 = some queue ∧ run step (start queue) lateEvents = some next ∧
    next.queue.queue = [] ∧ ¬RefusedFull next := by
  refine ⟨⟨[], 1, 0, 0, 0⟩, ⟨⟨[], 1, 1, 1, 1⟩, [], [(.pushed 1 true, 0), (.popped (some 1), 1), (.pushed 2 false, 0)]⟩,
    rfl, rfl, rfl, fun full => ?_⟩
  have room := full 2 0 (by simp)
  exact absurd room (by decide)

/-- A push that waits is woken by a pop and enters the queue. -/
theorem wokenPush_lossless : ∃ queue next, new Nat 1 = some queue ∧
    run step (start queue) [.tryPush 1, .pushTimeout 2 false, .pop, .wake 0 false false] = some next ∧
      (Lossless next ∧ RefusedFull next ↔ Meets step NoLateRoom (start queue)
        [.tryPush 1, .pushTimeout 2 false, .pop, .wake 0 false false]) :=
  ⟨_, _, rfl, rfl, @run_lossless Nat _ 1 _ rfl _ rfl⟩

end Shared

end Pictor.BoundedQueue
