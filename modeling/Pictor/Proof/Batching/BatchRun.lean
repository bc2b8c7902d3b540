import Pictor.Construction.Batching.ContinuousBatch
import Pictor.Library.Unrolling

namespace Pictor.ContinuousBatchScheduler
open Positions List

variable {Params : Type} {generate : Engine} {scheduler : ContinuousBatchScheduler Params}
  {request : BatchRequest Params}

/-- The tokens of a request are the start of its unrolling, and its budget is not used up. A request
without a budget has no tokens yet. -/
structure Ongoing (generate : Engine) (request : BatchRequest Params) : Prop where
  soFar : UnrolledSoFar generate request.maxTokens request.promptTokens request.generatedTokens
  within : request.generatedTokens.length < request.maxTokens ∨ request.generatedTokens = []

/-- The tokens of a completed request are its unrolling. -/
def Honoured (generate : Engine) (request : BatchRequest Params) : Prop :=
  request.state = .completed →
    unroll generate request.maxTokens request.promptTokens = .ok request.generatedTokens

/-- The engine has a token for a request that asks for none. -/
def Overrun (generate : Engine) (request : BatchRequest Params) : Prop :=
  request.maxTokens = 0 ∧ ∃ token, generate request.promptTokens = .ok (some token)

@[simp] theorem advance_toSubmission (generate : Engine) (request : BatchRequest Params) :
    (request.advance generate).1.toSubmission = request.toSubmission := by
  unfold BatchRequest.advance
  split
  · cases request.started with
    | false =>
        simp only [Bool.false_eq_true, if_false]
        split <;> rfl
    | true =>
        simp only [if_true]
        split <;> rfl
  · rfl

theorem advance_error {message : String}
    (failed : generate (request.promptTokens ++ request.generatedTokens) = .error message) :
    request.advance generate = ({ request with state := .failed message }, true) := by
  rw [BatchRequest.advance, failed]

theorem advance_stop (stopped : generate (request.promptTokens ++ request.generatedTokens) = .ok none) :
    (request.advance generate).2 = true ∧ (request.advance generate).1.generatedTokens = request.generatedTokens := by
  rw [BatchRequest.advance, stopped]
  cases request.started <;> simp

theorem advance_token {token : UInt32}
    (extended : generate (request.promptTokens ++ request.generatedTokens) = .ok (some token)) :
    ((request.advance generate).2 = true ↔ request.maxTokens ≤ request.generatedTokens.length + 1) ∧
      ((request.advance generate).2 = true → (request.advance generate).1.state = .completed) ∧
      (request.advance generate).1.generatedTokens = request.generatedTokens ++ [token] := by
  rw [BatchRequest.advance, extended]
  cases request.started with
  | false =>
      by_cases full : request.maxTokens ≤ request.generatedTokens.length + 1
      · simp [full]
      · simp [full]
  | true =>
      by_cases full : request.maxTokens ≤ request.generatedTokens.length + 1
      · simp [full]
      · simp [full]

theorem Ongoing.positive (ongoing : Ongoing generate request) (budget : 0 < request.maxTokens) :
    request.generatedTokens.length < request.maxTokens := by
  rcases ongoing.within with below | empty
  · exact below
  · rw [empty]
    exact budget

theorem advance_maxTokens (generate : Engine) (request : BatchRequest Params) :
    (request.advance generate).1.maxTokens = request.maxTokens :=
  congrArg Submission.maxTokens (advance_toSubmission generate request)

theorem advance_promptTokens (generate : Engine) (request : BatchRequest Params) :
    (request.advance generate).1.promptTokens = request.promptTokens :=
  congrArg Submission.promptTokens (advance_toSubmission generate request)

/-- A request that is not finished stays ongoing. -/
theorem Ongoing.advance (ongoing : Ongoing generate request)
    (unfinished : (request.advance generate).2 = false) : Ongoing generate (request.advance generate).1 := by
  cases extended : generate (request.promptTokens ++ request.generatedTokens) with
  | error message =>
      rw [advance_error extended] at unfinished
      cases unfinished
  | ok newToken =>
      cases newToken with
      | none =>
          rw [(advance_stop extended).1] at unfinished
          cases unfinished
      | some token =>
          obtain ⟨finished, _, tokens⟩ := advance_token extended
          have more : request.generatedTokens.length + 1 < request.maxTokens := by
            by_contra full
            rw [finished.mpr (Nat.le_of_not_lt full)] at unfinished
            cases unfinished
          constructor
          · rw [advance_maxTokens, advance_promptTokens, tokens]
            exact ongoing.soFar.token (Nat.lt_of_succ_lt more) extended
          · rw [advance_maxTokens, tokens, length_append, length_singleton]
            exact Or.inl more

/-- An iteration honours the request unless it overruns an empty budget. -/
theorem Ongoing.honoured_iff (ongoing : Ongoing generate request) :
    ((request.advance generate).2 = true → Honoured generate (request.advance generate).1) ↔
      ¬Overrun generate request := by
  constructor
  · rintro honoured ⟨zero, token, extended⟩
    have none : request.generatedTokens = [] := by
      rcases ongoing.within with below | empty
      · omega
      · exact empty
    rw [← append_nil request.promptTokens, ← none] at extended
    obtain ⟨finished, completed, tokens⟩ := advance_token extended
    have done := finished.mpr (by omega)
    have unrolled := honoured done (completed done)
    rw [advance_maxTokens, zero, tokens, none, unroll] at unrolled
    cases unrolled
  · intro fits finished completed
    rw [advance_maxTokens, advance_promptTokens]
    cases extended : generate (request.promptTokens ++ request.generatedTokens) with
    | error message =>
        rw [advance_error extended] at completed
        cases completed
    | ok newToken =>
        rcases Nat.eq_zero_or_pos request.maxTokens with zero | positive
        · have empty : request.generatedTokens = [] := by
            rcases ongoing.within with below | empty
            · omega
            · exact empty
          cases newToken with
          | none => rw [(advance_stop extended).2, zero, empty, unroll]
          | some token =>
              rw [empty, append_nil] at extended
              exact absurd ⟨zero, token, extended⟩ fits
        · have below := ongoing.positive positive
          cases newToken with
          | none =>
              rw [(advance_stop extended).2]
              exact ongoing.soFar.stop below extended
          | some token =>
              obtain ⟨done, _, tokens⟩ := advance_token extended
              rw [tokens]
              apply (ongoing.soFar.token below extended).full
              rw [length_append, length_singleton]
              exact done.mp finished

theorem promoteLoop_eq (maxConcurrent : Nat) (queue active : List (BatchRequest Params)) :
    promoteLoop maxConcurrent queue active = (queue.drop (maxConcurrent - active.length), active ++
        (queue.take (maxConcurrent - active.length)).map fun request =>
          { request with state := .prefilling }) := by
  induction queue generalizing active with
  | nil => simp [promoteLoop]
  | cons request queue ih =>
      rw [promoteLoop]
      split
      · rename_i room
        obtain ⟨left, count⟩ := Nat.exists_eq_succ_of_ne_zero (Nat.sub_ne_zero_of_lt room)
        have fewer : maxConcurrent - (active.length + 1) = left := by omega
        rw [ih, length_append, length_singleton, fewer, count, drop_succ_cons,
          take_succ_cons, map_cons, append_assoc, singleton_append]
      · rename_i full
        have none : maxConcurrent - active.length = 0 := by omega
        rw [none]
        simp

/-- The removals of the finished requests act on the active set and on the completed list. -/
theorem foldl_retire (indices : List Nat) (scheduler : ContinuousBatchScheduler Params)
    (lists : List (BatchRequest Params × Bool) × List (BatchRequest Params × Bool))
    (before : List (BatchRequest Params)) (active : scheduler.active = lists.1.map Prod.fst)
    (completed : scheduler.completed = before ++ lists.2.map Prod.fst) :
    let final := indices.foldl retire scheduler
    final.active = (indices.foldl pull lists).1.map Prod.fst ∧
      final.completed = before ++ (indices.foldl pull lists).2.map Prod.fst ∧
      final.queue = scheduler.queue ∧ final.nextId = scheduler.nextId ∧
      final.maxConcurrent = scheduler.maxConcurrent := by
  induction indices generalizing scheduler lists with
  | nil => exact ⟨active, completed, rfl, rfl, rfl⟩
  | cons idx rest ih =>
      have present : scheduler.active[idx]? = (lists.1[idx]?).map Prod.fst := by
        rw [active, getElem?_map]
      cases found : lists.1[idx]? with
      | none =>
          rw [found, Option.map_none] at present
          have same : scheduler.retire idx = scheduler := by rw [retire, present]
          have same' : pull lists idx = lists := by rw [pull, found]
          rw [foldl_cons, foldl_cons, same, same']
          exact ih scheduler lists active completed
      | some entry =>
          rw [found, Option.map_some] at present
          have pulled : pull lists idx = (lists.1.eraseIdx idx, lists.2 ++ [entry]) := by
            rw [pull, found]
          have retired : scheduler.retire idx = { scheduler with
              active := scheduler.active.eraseIdx idx
              totalTokensGenerated := scheduler.totalTokensGenerated + entry.1.generatedTokens.length
              completed := scheduler.completed ++ [entry.1] } := by rw [retire, present]
          rw [foldl_cons, foldl_cons, pulled, retired]
          apply ih
          · rw [active, eraseIdx_map]
          · rw [completed, map_append, append_assoc]
            rfl

/-- What a step does: the promoted active set advances, and it splits into the unfinished and the
finished requests. -/
structure Stepped (generate : Engine) (before after : ContinuousBatchScheduler Params) : Prop where
  queue : after.queue = before.promote.queue
  active : after.active =
    ((before.promote.active.map (BatchRequest.advance generate)).filter fun entry => !entry.2).map Prod.fst
  completed : after.completed = before.completed ++
    ((before.promote.active.map (BatchRequest.advance generate)).filter Prod.snd).reverse.map Prod.fst
  nextId : after.nextId = before.nextId
  maxConcurrent : after.maxConcurrent = before.maxConcurrent

theorem step_stepped (generate : Engine) (scheduler : ContinuousBatchScheduler Params) :
    Stepped generate scheduler (scheduler.step generate) := by
  rw [step]
  split
  · rename_i idle
    rw [List.isEmpty_iff] at idle
    constructor
    · rfl
    · rw [idle]
      rfl
    · rw [idle]
      exact (append_nil _).symm
    · rfl
    · rfl
  · let advanced := scheduler.promote.active.map (BatchRequest.advance generate)
    obtain ⟨active, completed, queue, nextId, maxConcurrent⟩ := foldl_retire
      (positions Prod.snd advanced).reverse { scheduler.promote with active := advanced.map Prod.fst }
      (advanced, []) scheduler.completed rfl (append_nil _).symm
    have removed := foldl_pull Prod.snd advanced [] []
    rw [append_nil, append_nil, nil_append] at removed
    rw [removed] at active completed
    exact ⟨queue, active, completed, nextId, maxConcurrent⟩

end Pictor.ContinuousBatchScheduler

namespace Pictor.BatchService
open Positions ContinuousBatchScheduler List

variable {Params : Type} {generate : Engine} {service : BatchService Params}

/-- A waiting request precedes those of lower priority and those of its priority that came later. -/
def Before (first second : BatchRequest Params) : Prop :=
  second.priority.rank < first.priority.rank ∨
    (first.priority = second.priority ∧ first.id < second.id)

/-- Every request of a service. -/
def requests (service : BatchService Params) : List (BatchRequest Params) :=
  service.scheduler.queue ++ service.scheduler.active ++ service.scheduler.completed ++ service.drained

/-- The accepted submissions and the requests correspond, the active set is within its limit, the queue
is ordered, and each completed request carries its own unrolling. -/
structure Transparent (generate : Engine) (maxConcurrent : Nat) (service : BatchService Params) : Prop where
  conserved : (service.requests.map BatchRequest.toSubmission).Perm service.submitted
  fresh : service.submitted.Pairwise fun earlier later => earlier.id < later.id
  bounded : service.scheduler.active.length ≤ max maxConcurrent 1
  ordered : service.scheduler.queue.Pairwise Before
  honoured : ∀ request ∈ service.scheduler.completed ++ service.drained, Honoured generate request

/-- What every run keeps, whatever the budgets are. -/
structure Conserves (generate : Engine) (maxConcurrent : Nat) (service : BatchService Params) : Prop where
  conserved : (service.requests.map BatchRequest.toSubmission).Perm service.submitted
  fresh : service.submitted.Pairwise fun earlier later => earlier.id < later.id
  below : ∀ submission ∈ service.submitted, submission.id < service.scheduler.nextId
  limit : service.scheduler.maxConcurrent = max maxConcurrent 1
  bounded : service.scheduler.active.length ≤ max maxConcurrent 1
  ordered : service.scheduler.queue.Pairwise Before
  untouched : ∀ request ∈ service.scheduler.queue, request.generatedTokens = []
  ongoing : ∀ request ∈ service.scheduler.active, Ongoing generate request

/-- No request that the step advances overruns an empty budget. -/
def WithinBudgets (generate : Engine) (scheduler : ContinuousBatchScheduler Params) : Prop :=
  ∀ request ∈ scheduler.promote.active, ¬Overrun generate request

theorem rank_injective {first second : RequestPriority} (same : first.rank = second.rank) : first = second := by
  cases first <;> cases second <;> first | rfl | cases same

/-- The service after an accepted submission. -/
def accepted (service : BatchService Params) (submission : Submission Params) : BatchService Params :=
  { service with
    scheduler := { service.scheduler with
      nextId := service.scheduler.nextId + 1
      totalRequests := service.scheduler.totalRequests + 1
      queue := service.scheduler.queue.insertIdx
        (service.scheduler.queue.findIdx fun other => other.priority.rank < submission.priority.rank)
        { submission with state := .waiting, generatedTokens := [], started := false } }
    submitted := service.submitted ++ [submission] }

/-- A submission is rejected, or it is accepted under the next id. -/
theorem submit_cases (generate : Engine) (service : BatchService Params) (promptTokens : List UInt32)
    (params : Params) (maxTokens : Nat) (priority : RequestPriority) :
    service.call generate (.submitWithPriority promptTokens params maxTokens priority) = service ∨
    service.call generate (.submitWithPriority promptTokens params maxTokens priority) =
      service.accepted ⟨service.scheduler.nextId, promptTokens, params, maxTokens, priority⟩ := by
  by_cases full : service.scheduler.maxQueueSize ≤ service.scheduler.queue.length
  · left
    simp only [call, submitWithPriority, if_pos full]
  · right
    simp only [call, submitWithPriority, if_neg full]
    rfl

variable {maxConcurrent : Nat}

theorem Conserves.accepted (conserves : Conserves generate maxConcurrent service) (submission : Submission Params)
    (next : submission.id = service.scheduler.nextId) :
    Conserves generate maxConcurrent (service.accepted submission) := by
  let request : BatchRequest Params :=
    { submission with state := .waiting, generatedTokens := [], started := false }
  have inserted := insertIdx_findIdx_perm (fun other : BatchRequest Params =>
    decide (other.priority.rank < submission.priority.rank)) service.scheduler.queue request
  constructor
  · have grown : (service.accepted submission).requests.Perm (request :: service.requests) := by
      simp only [requests, append_assoc]
      exact inserted.append_right _
    exact ((grown.map _).trans (conserves.conserved.cons _)).trans
      (perm_append_singleton _ _).symm
  · apply pairwise_append.mpr
    refine ⟨conserves.fresh, pairwise_singleton _ _, ?_⟩
    intro earlier member later new
    rw [mem_singleton.mp new, next]
    exact conserves.below earlier member
  · intro other member
    rcases mem_append.mp member with earlier | new
    · exact Nat.lt_succ_of_lt (conserves.below other earlier)
    · rw [mem_singleton.mp new, next]
      exact Nat.lt_succ_self _
  · exact conserves.limit
  · exact conserves.bounded
  · apply insertIdx_findIdx_pairwise _ conserves.ordered
    · intro other member notLower
      have listed : other.toSubmission ∈ service.submitted := by
        apply conserves.conserved.mem_iff.mp
        apply mem_map_of_mem
        simp only [requests, append_assoc]
        exact mem_append_left _ member
      have earlier := conserves.below _ listed
      rw [← next] at earlier
      have higher := Nat.le_of_not_lt (of_decide_eq_false notLower)
      rcases Nat.lt_or_eq_of_le higher with above | same
      · exact Or.inl above
      · exact Or.inr ⟨rank_injective same.symm, earlier⟩
    · intro other _ lower
      exact Or.inl (of_decide_eq_true lower)
    · intro first second before lower
      have below := of_decide_eq_true lower
      apply decide_eq_true
      rcases before with less | ⟨same, _⟩
      · exact Nat.lt_trans less below
      · rwa [← same]
  · intro other member
    rcases mem_cons.mp (inserted.mem_iff.mp member) with rfl | earlier
    · rfl
    · exact conserves.untouched other earlier
  · exact conserves.ongoing

/-- The promotion keeps the requests, and what it promotes has no tokens. -/
theorem Conserves.promote (conserves : Conserves generate maxConcurrent service) :
    (((service.scheduler.promote.queue ++ service.scheduler.promote.active).map BatchRequest.toSubmission).Perm
      ((service.scheduler.queue ++ service.scheduler.active).map BatchRequest.toSubmission)) ∧
    service.scheduler.promote.active.length ≤ max maxConcurrent 1 ∧
    service.scheduler.promote.queue.Sublist service.scheduler.queue ∧
    ∀ request ∈ service.scheduler.promote.active, Ongoing generate request := by
  simp only [ContinuousBatchScheduler.promote, promoteLoop_eq, conserves.limit]
  have bounded := conserves.bounded
  refine ⟨?_, ?_, drop_sublist _ _, ?_⟩
  · rw [map_append, map_append, map_append, map_map]
    change (List.map _ (List.drop _ _) ++ (_ ++ List.map BatchRequest.toSubmission _)).Perm _
    rw [← append_assoc]
    apply perm_append_comm.trans
    rw [← append_assoc, ← map_append, take_append_drop]
  · rw [length_append, length_map, length_take]
    omega
  · intro request member
    rcases mem_append.mp member with active | promoted
    · exact conserves.ongoing request active
    · obtain ⟨waiting, queued, rfl⟩ := mem_map.mp promoted
      have none := conserves.untouched waiting (mem_of_mem_take queued)
      refine ⟨?_, Or.inr none⟩
      change UnrolledSoFar generate _ _ waiting.generatedTokens
      rw [none]
      exact unrolledSoFar_nil

/-- The unfinished and the finished requests of a step are its active requests. -/
theorem filter_perm (generate : Engine) (active : List (BatchRequest Params)) :
    (((active.map (BatchRequest.advance generate)).filter (fun entry => !entry.2)).map Prod.fst ++
      ((active.map (BatchRequest.advance generate)).filter Prod.snd).reverse.map Prod.fst).map
        BatchRequest.toSubmission |>.Perm (active.map BatchRequest.toSubmission) := by
  let advanced := active.map (BatchRequest.advance generate)
  have parts : (advanced.filter (fun entry => !entry.2) ++ (advanced.filter Prod.snd).reverse).Perm
      advanced := by
    apply ((reverse_perm _).append_left _).trans
    exact perm_append_comm.trans (filter_append_perm Prod.snd advanced)
  have whole : (advanced.map Prod.fst).map BatchRequest.toSubmission =
      active.map BatchRequest.toSubmission := by
    simp only [advanced, map_map]
    apply map_congr_left
    intro request _
    exact advance_toSubmission generate request
  rw [← whole, ← map_append]
  exact (parts.map _).map _

theorem Conserves.step {maxConcurrent : Nat} (conserves : Conserves generate maxConcurrent service) :
    Conserves generate maxConcurrent (service.call generate .step) := by
  obtain ⟨moved, bounded, waiting, ongoing⟩ := conserves.promote
  have stepped := step_stepped generate service.scheduler
  constructor
  · refine List.Perm.trans ?_ conserves.conserved
    have parted := filter_perm generate service.scheduler.promote.active
    classical
    apply perm_iff_count.mpr
    intro submission
    have same := perm_iff_count.mp moved submission
    have same' := perm_iff_count.mp parted submission
    simp only [requests, call, stepped.queue, stepped.active, stepped.completed, map_append,
      count_append] at same same' ⊢
    omega
  · exact conserves.fresh
  · rw [call, stepped.nextId]
    exact conserves.below
  · rw [call, stepped.maxConcurrent]
    exact conserves.limit
  · simp only [call, stepped.active]
    rw [length_map]
    refine Nat.le_trans (length_filter_le _ _) ?_
    rw [length_map]
    exact bounded
  · rw [call, stepped.queue]
    exact conserves.ordered.sublist waiting
  · rw [call, stepped.queue]
    exact fun request member => conserves.untouched request (waiting.subset member)
  · intro request member
    rw [call, stepped.active] at member
    obtain ⟨entry, kept, rfl⟩ := mem_map.mp member
    obtain ⟨advanced, unfinished⟩ := mem_filter.mp kept
    obtain ⟨before, active, rfl⟩ := mem_map.mp advanced
    exact (ongoing before active).advance (by simpa using unfinished)

theorem Conserves.drain (conserves : Conserves generate maxConcurrent service) :
    Conserves generate maxConcurrent (service.call generate .drainCompleted) := by
  constructor
  · refine List.Perm.trans ?_ conserves.conserved
    apply List.Perm.map
    simp only [requests, call, drainCompleted, append_nil, append_assoc]
    exact (perm_append_comm.append_left _).append_left _
  · exact conserves.fresh
  · exact conserves.below
  · exact conserves.limit
  · exact conserves.bounded
  · exact conserves.ordered
  · exact conserves.untouched
  · exact conserves.ongoing

theorem Conserves.call (conserves : Conserves generate maxConcurrent service) (next : Call Params) :
    Conserves generate maxConcurrent (service.call generate next) := by
  cases next with
  | submitWithPriority promptTokens params maxTokens priority =>
      rcases submit_cases generate service promptTokens params maxTokens priority with same | grown
      · rw [same]
        exact conserves
      · rw [grown]
        exact conserves.accepted _ rfl
  | step => exact conserves.step
  | drainCompleted => exact conserves.drain

/-- Every run keeps the requests, the limit and the order. -/
theorem run_conserves (generate : Engine) (maxConcurrent maxQueueSize : Nat) (calls : List (Call Params)) :
    Conserves generate maxConcurrent (run generate maxConcurrent maxQueueSize calls) := by
  induction calls using List.reverseRecOn with
  | nil =>
      constructor
      · exact List.Perm.refl _
      · exact List.Pairwise.nil
      · intro submission member
        cases member
      · rfl
      · exact Nat.zero_le _
      · exact List.Pairwise.nil
      · intro request member
        cases member
      · intro request member
        cases member
  | append_singleton past next ih =>
      rw [run, foldl_append, foldl_cons, foldl_nil]
      exact ih.call next

/-- The results that a caller can see. -/
def results (service : BatchService Params) : List (BatchRequest Params) :=
  service.scheduler.completed ++ service.drained

/-- A step honours its results exactly if it stays within the budgets. -/
theorem step_honoured_iff (conserves : Conserves generate maxConcurrent service)
    (honoured : ∀ request ∈ service.results, Honoured generate request) :
    (∀ request ∈ (service.call generate .step).results, Honoured generate request) ↔
      WithinBudgets generate service.scheduler := by
  have ongoing := conserves.promote.2.2.2
  have stepped := step_stepped generate service.scheduler
  have finished (request : BatchRequest Params) (active : request ∈ service.scheduler.promote.active)
      (done : (request.advance generate).2 = true) :
      (request.advance generate).1 ∈ (service.call generate .step).results := by
    apply mem_append_left
    simp only [BatchService.call, stepped.completed]
    apply mem_append_right
    apply mem_map_of_mem
    exact mem_reverse.mpr (mem_filter.mpr ⟨mem_map_of_mem active, done⟩)
  constructor
  · intro after request active
    exact (ongoing request active).honoured_iff.mp fun done => after _ (finished request active done)
  · intro within request member
    rcases mem_append.mp member with completed | drained
    · simp only [BatchService.call, stepped.completed] at completed
      rcases mem_append.mp completed with earlier | new
      · exact honoured request (mem_append_left _ earlier)
      · obtain ⟨entry, kept, rfl⟩ := mem_map.mp new
        obtain ⟨advanced, done⟩ := mem_filter.mp (mem_reverse.mp kept)
        obtain ⟨before, active, rfl⟩ := mem_map.mp advanced
        exact (ongoing before active).honoured_iff.mpr (within before active) done
    · exact honoured request (mem_append_right _ drained)

/-- The other calls give no new results. -/
theorem call_results (generate : Engine) (service : BatchService Params) {next : Call Params}
    (other : next ≠ .step) : ∀ request, request ∈ (service.call generate next).results ↔
      request ∈ service.results := by
  intro request
  cases next with
  | submitWithPriority promptTokens params maxTokens priority =>
      rcases submit_cases generate service promptTokens params maxTokens priority with same | grown
      · rw [same]
      · rw [grown]
        rfl
  | step => exact absurd rfl other
  | drainCompleted =>
      simp only [results, BatchService.call, drainCompleted, nil_append, mem_append]
      exact or_comm

/-- A run whose steps stay within the budgets honours its results. -/
theorem run_honoured (generate : Engine) (maxConcurrent maxQueueSize : Nat) (calls : List (Call Params))
    (within : ∀ past, past ++ [.step] <+: calls →
      WithinBudgets generate (run generate maxConcurrent maxQueueSize past).scheduler) :
    ∀ request ∈ (run generate maxConcurrent maxQueueSize calls).results, Honoured generate request := by
  induction calls using List.reverseRecOn with
  | nil =>
      intro request member
      cases member
  | append_singleton past next ih =>
      have honoured := ih fun earlier inside => within earlier (inside.trans (List.prefix_append past [next]))
      have conserves := run_conserves generate maxConcurrent maxQueueSize past
      rw [run, foldl_append, foldl_cons, foldl_nil]
      by_cases isStep : next = .step
      · subst isStep
        exact (step_honoured_iff conserves honoured).mpr (within past (prefix_refl _))
      · intro request member
        exact honoured request ((call_results generate _ isStep request).mp member)

/-- In every run the requests are conserved and ordered. Each completed request carries its unrolling
exactly if no step has a token for a request that asks for none. -/
theorem run_transparent_iff (generate : Engine) (maxConcurrent maxQueueSize : Nat) (calls : List (Call Params)) :
    (∀ past, past <+: calls → Transparent generate maxConcurrent (run generate maxConcurrent maxQueueSize past)) ↔
    ∀ past, past ++ [.step] <+: calls →
      WithinBudgets generate (run generate maxConcurrent maxQueueSize past).scheduler := by
  constructor
  · intro transparent past within
    have before := transparent past ((List.prefix_append past [.step]).trans within)
    have after := transparent (past ++ [.step]) within
    have conserves := run_conserves generate maxConcurrent maxQueueSize past
    apply (step_honoured_iff conserves before.honoured).mp
    have results := after.honoured
    rw [run, foldl_append, foldl_cons, foldl_nil] at results
    exact results
  · intro within past inside
    have conserves := run_conserves generate maxConcurrent maxQueueSize past
    constructor
    · exact conserves.conserved
    · exact conserves.fresh
    · exact conserves.bounded
    · exact conserves.ordered
    · exact run_honoured generate maxConcurrent maxQueueSize past fun earlier step =>
        within earlier (step.trans inside)

/-- An engine that always has one more token. -/
def endlessEngine : Engine := fun _ => .ok (some 7)

/-- A request for no tokens. -/
def emptyBudgetCalls : List (Call Unit) := [.submitWithPriority [1] () 0 .normal, .step]

/-- The request is completed with a token. -/
theorem emptyBudgetCalls_overrun : (run endlessEngine 1 1 emptyBudgetCalls).scheduler.completed =
      [{ id := 1, promptTokens := [1], params := (), maxTokens := 0, priority := .normal
         state := .completed, generatedTokens := [7], started := true }] ∧
    unroll endlessEngine 0 [1] = .ok [] ∧
    ¬Transparent endlessEngine 1 (run endlessEngine 1 1 emptyBudgetCalls) := by
  have finished : (run endlessEngine 1 1 emptyBudgetCalls).scheduler.completed =
      [{ id := 1, promptTokens := [1], params := (), maxTokens := 0, priority := .normal
         state := .completed, generatedTokens := [7], started := true }] := by decide
  refine ⟨finished, rfl, ?_⟩
  intro transparent
  have listed := transparent.honoured
  rw [finished] at listed
  have unrolled := listed _ mem_cons_self rfl
  cases unrolled

end Pictor.BatchService
