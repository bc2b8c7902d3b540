import Pictor.Construction.Decoding.InferenceEngine

namespace Pictor.InferenceEngine
open List

variable {Model Params Rng Logits Failure : Type}

/-- The tokens of a decode loop, how it ends, and the engine after it. -/
structure Decoded (Model Params Rng Failure : Type) where
  tokens : List UInt32
  ended : Except Failure Unit
  engine : InferenceEngine Model Params Rng

/-- The decode loop without the records of an entry point. -/
def decode (calls : EngineCalls Model Params Rng Logits Failure) :
    Nat → Nat → Logits → InferenceEngine Model Params Rng → Decoded Model Params Rng Failure
  | 0, _, _, engine => ⟨[], .ok (), engine⟩
  | budget + 1, pos, logits, engine =>
      match engine.sample calls logits with
      | (.error failure, engine) => ⟨[], .error failure, engine⟩
      | (.ok token, engine) =>
          if token = eosTokenId then ⟨[], .ok (), engine⟩
          else
            match engine.forward calls token pos with
            | (.error failure, engine) => ⟨[token], .error failure, engine⟩
            | (.ok logits, engine) =>
                let later := decode calls budget (pos + 1) logits engine.observeDecode
                { later with tokens := token :: later.tokens }

variable (calls : EngineCalls Model Params Rng Logits Failure)

theorem generateLoop_eq (budget pos : Nat) (logits : Logits) (outputTokens : List UInt32)
    (engine : InferenceEngine Model Params Rng) : generateLoop calls budget pos logits outputTokens engine =
      let decoded := decode calls budget pos logits engine
      (decoded.ended.map fun _ => outputTokens ++ decoded.tokens, decoded.engine) := by
  induction budget generalizing pos logits outputTokens engine with
  | zero =>
      simp only [generateLoop, decode, append_nil]
      rfl
  | succ budget ih =>
      rw [generateLoop, decode]
      cases engine.sample calls logits with
      | mk sampled engine =>
          cases sampled with
          | error failure => rfl
          | ok token =>
              simp only
              split
              · simp only [append_nil]
                rfl
              · cases engine.forward calls token pos with
                | mk called engine =>
                    cases called with
                    | error failure => rfl
                    | ok logits =>
                        simp only [ih, append_assoc, singleton_append]

/-- The records of the tokens of a request. -/
def tokenRecords (firstTokenRecorded : Bool) (count : Nat) : List TrackerRecord :=
  match count with
  | 0 => []
  | rest + 1 => (if firstTokenRecorded then .token else .firstToken) :: List.replicate rest .token

theorem tokenRecords_succ (firstTokenRecorded : Bool) (count : Nat) : tokenRecords firstTokenRecorded (count + 1) =
      (if firstTokenRecorded then .token else .firstToken) :: tokenRecords true count := by
  cases count with
  | zero => rfl
  | succ rest => rfl

theorem countP_tokenRecords (firstTokenRecorded : Bool) (count : Nat) :
    (tokenRecords firstTokenRecorded count).countP (· ≠ .admission) = count := by
  induction count generalizing firstTokenRecorded with
  | zero => rfl
  | succ count ih =>
      rw [tokenRecords_succ, countP_cons, ih]
      cases firstTokenRecorded <;> rfl

theorem trackedLoop_eq (budget pos : Nat) (logits : Logits) (outputTokens : List UInt32) (firstTokenRecorded : Bool)
    (tracker : List TrackerRecord) (engine : InferenceEngine Model Params Rng) :
    trackedLoop calls budget pos logits outputTokens firstTokenRecorded tracker engine =
      let decoded := decode calls budget pos logits engine
      (decoded.ended.map fun _ => outputTokens ++ decoded.tokens,
        tracker ++ tokenRecords firstTokenRecorded decoded.tokens.length, decoded.engine) := by
  induction budget generalizing pos logits outputTokens firstTokenRecorded tracker engine with
  | zero =>
      simp only [trackedLoop, decode, append_nil, length_nil, tokenRecords]
      rfl
  | succ budget ih =>
      rw [trackedLoop, decode]
      cases engine.sample calls logits with
      | mk sampled engine =>
          cases sampled with
          | error failure =>
              simp only [length_nil, tokenRecords, append_nil]
              rfl
          | ok token =>
              simp only
              split
              · simp only [append_nil, length_nil, tokenRecords]
                rfl
              · cases engine.forward calls token pos with
                | mk called engine =>
                    cases called with
                    | error failure =>
                        simp only [length_singleton, tokenRecords, replicate_zero]
                        rfl
                    | ok logits =>
                        simp only [ih, append_assoc, singleton_append, length_cons, tokenRecords_succ]

/-- A connected channel receives the tokens of the loop. -/
theorem streamingLoop_eq (budget pos : Nat) (logits : Logits) (generated : Nat) (received : List UInt32)
    (engine : InferenceEngine Model Params Rng) :
    streamingLoop calls budget pos logits generated ⟨true, received⟩ engine =
      let decoded := decode calls budget pos logits engine
      (decoded.ended.map fun _ => generated + decoded.tokens.length, ⟨true, received ++ decoded.tokens⟩,
        decoded.engine) := by
  induction budget generalizing pos logits generated received engine with
  | zero =>
      simp only [streamingLoop, decode, append_nil, length_nil, Nat.add_zero]
      rfl
  | succ budget ih =>
      rw [streamingLoop, decode]
      cases engine.sample calls logits with
      | mk sampled engine =>
          cases sampled with
          | error failure =>
              simp only [append_nil]
              rfl
          | ok token =>
              simp only
              split
              · simp only [append_nil, length_nil, Nat.add_zero]
                rfl
              · simp only [Channel.send, if_true]
                cases engine.forward calls token pos with
                | mk called engine =>
                    cases called with
                    | error failure => rfl
                    | ok logits =>
                        simp only [ih, append_assoc, singleton_append, length_cons]
                        refine Prod.ext ?_ rfl
                        simp only [Nat.add_assoc, Nat.add_comm 1]

/-- No call of the decode loop fails. -/
def Completes : Nat → Nat → Logits → Model → Sampler Params Rng → Prop
  | 0, _, _, _, _ => True
  | budget + 1, pos, logits, model, sampler =>
      match calls.sample logits sampler with
      | (.error _, _) => False
      | (.ok token, sampler) =>
          token = eosTokenId ∨
            match calls.forward token pos model with
            | (.error _, _) => False
            | (.ok logits, model) => Completes budget (pos + 1) logits model sampler

theorem decode_ended (budget pos : Nat) (logits : Logits) (engine : InferenceEngine Model Params Rng) :
    (decode calls budget pos logits engine).ended = .ok () ↔
      Completes calls budget pos logits engine.model engine.sampler := by
  induction budget generalizing pos logits engine with
  | zero => exact ⟨fun _ => trivial, fun _ => rfl⟩
  | succ budget ih =>
      rw [decode, Completes, sample]
      cases calls.sample logits engine.sampler with
      | mk result sampler =>
          cases result with
          | error failure => simp
          | ok token =>
              simp only
              by_cases stop : token = eosTokenId
              · simp [stop]
              · simp only [stop, if_false, false_or, forward]
                cases calls.forward token pos engine.model with
                | mk result' model =>
                    cases result' with
                    | error failure => simp
                    | ok logits => exact ih _ _ _

/-- A loop without a token has no budget, or its first call gives no token. -/
theorem decode_tokens_nil (budget pos : Nat) (logits : Logits) (engine : InferenceEngine Model Params Rng) :
    (decode calls budget pos logits engine).tokens = [] ∧ (decode calls budget pos logits engine).ended = .ok () ↔
      budget = 0 ∨ (calls.sample logits engine.sampler).1 = .ok eosTokenId := by
  cases budget with
  | zero => simp [decode]
  | succ budget =>
      rw [decode, sample]
      cases calls.sample logits engine.sampler with
      | mk result sampler =>
          cases result with
          | error failure => simp
          | ok token =>
              simp only
              by_cases stop : token = eosTokenId
              · simp [stop]
              · simp only [stop, if_false]
                cases forward calls token pos { engine with sampler := sampler } with
                | mk result' next =>
                    cases result' with
                    | error failure => simp [stop]
                    | ok logits => simp [stop]

section Agreement

variable (engine : InferenceEngine Model Params Rng) (promptTokens : List UInt32) (maxTokens : Nat)

/-- Two engines that agree in the model, in the sampler and in the metrics. -/
structure SameParts (engine engine' : InferenceEngine Model Params Rng) : Prop where
  model : engine'.model = engine.model
  sampler : engine'.sampler = engine.sampler
  metrics : engine'.metrics = engine.metrics

/-- The entry points return the same tokens or the same failure, deliver the same tokens, return the same count,
and leave the same parts. -/
structure Agree (tracker : List TrackerRecord) (received : List UInt32) : Prop where
  tracked : (engine.generateTracked calls promptTokens maxTokens tracker).1 =
    (engine.generate calls promptTokens maxTokens).1
  streamed : (engine.generateStreaming calls promptTokens maxTokens ⟨true, received⟩).1 =
    (engine.generate calls promptTokens maxTokens).1.map List.length
  synced : (engine.generateStreamingSync calls promptTokens maxTokens ⟨true, received⟩).1 =
    (engine.generate calls promptTokens maxTokens).1.map List.length
  delivered : ∀ tokens, (engine.generate calls promptTokens maxTokens).1 = .ok tokens →
    (engine.generateStreaming calls promptTokens maxTokens ⟨true, received⟩).2.1.received = received ++ tokens
  deliveredSync : (engine.generateStreamingSync calls promptTokens maxTokens ⟨true, received⟩).2.1 =
    (engine.generateStreaming calls promptTokens maxTokens ⟨true, received⟩).2.1
  recorded : ∀ tokens, (engine.generate calls promptTokens maxTokens).1 = .ok tokens →
    (engine.generateTracked calls promptTokens maxTokens tracker).2.1.countP (· ≠ .admission) =
      tracker.countP (· ≠ .admission) + tokens.length
  trackedParts : SameParts (engine.generate calls promptTokens maxTokens).2
    (engine.generateTracked calls promptTokens maxTokens tracker).2.2
  streamedParts : SameParts (engine.generate calls promptTokens maxTokens).2
    (engine.generateStreaming calls promptTokens maxTokens ⟨true, received⟩).2.2
  syncedParts : SameParts (engine.generate calls promptTokens maxTokens).2
    (engine.generateStreamingSync calls promptTokens maxTokens ⟨true, received⟩).2.2

/-- The statistics of the engine count the same number of generated tokens. -/
structure CountedAlike (tracker : List TrackerRecord) (received : List UInt32) : Prop where
  tracked : (engine.generateTracked calls promptTokens maxTokens tracker).2.2.stats.totalTokensGenerated =
    (engine.generate calls promptTokens maxTokens).2.stats.totalTokensGenerated
  streamed : (engine.generateStreaming calls promptTokens maxTokens ⟨true, received⟩).2.2.stats.totalTokensGenerated =
    (engine.generate calls promptTokens maxTokens).2.stats.totalTokensGenerated
  synced : (engine.generateStreamingSync calls promptTokens maxTokens ⟨true, received⟩).2.2.stats.totalTokensGenerated =
    (engine.generate calls promptTokens maxTokens).2.stats.totalTokensGenerated

/-- The variants behave as the plain functions under the given parameters, and they restore the sampler or its
parameters. -/
structure Restores (params : Params) (seed : UInt64) (tx : Channel) : Prop where
  result : (engine.generateWithParams calls promptTokens maxTokens params).1 =
    ((engine.setParams params).generate calls promptTokens maxTokens).1
  parts : (engine.generateWithParams calls promptTokens maxTokens params).2 =
    ((engine.setParams params).generate calls promptTokens maxTokens).2.setParams engine.sampler.params
  kept : (engine.generateWithParams calls promptTokens maxTokens params).2.sampler.params = engine.sampler.params
  streamedResult : (engine.generateStreamingWithParams calls promptTokens maxTokens params tx).1 =
    ((engine.setParams params).generateStreaming calls promptTokens maxTokens tx).1
  delivered : (engine.generateStreamingWithParams calls promptTokens maxTokens params tx).2.1 =
    ((engine.setParams params).generateStreaming calls promptTokens maxTokens tx).2.1
  streamedParts : (engine.generateStreamingWithParams calls promptTokens maxTokens params tx).2.2 =
    ((engine.setParams params).generateStreaming calls promptTokens maxTokens tx).2.2.setParams engine.sampler.params
  streamedKept : (engine.generateStreamingWithParams calls promptTokens maxTokens params tx).2.2.sampler.params =
    engine.sampler.params
  seeded : (engine.generateWithSeed calls promptTokens maxTokens seed params).2.sampler = engine.sampler

/-- The call ends without a counted token: the prompt is empty, a call fails, or there is no first token. -/
def Silent : Prop :=
  promptTokens = [] ∨ ∀ logits, (calls.forwardPrefill promptTokens 0 engine.model).1 = .ok logits →
    maxTokens = 0 ∨ (calls.sample logits engine.sampler).1 = .ok eosTokenId ∨
      ¬Completes calls maxTokens promptTokens.length logits (calls.forwardPrefill promptTokens 0 engine.model).2
        engine.sampler

variable (tracker : List TrackerRecord) (received : List UInt32)

/-- The entry points on an empty prompt. -/
theorem entryPoints_empty (empty : promptTokens = []) :
    engine.generate calls promptTokens maxTokens = (.ok [], engine) ∧
      engine.generateTracked calls promptTokens maxTokens tracker = (.ok [], tracker, engine) ∧
      engine.stream calls promptTokens maxTokens ⟨true, received⟩ = (.ok 0, ⟨true, received⟩, engine) :=
  ⟨if_pos empty, if_pos empty, if_pos empty⟩

variable {next : InferenceEngine Model Params Rng}

/-- The entry points after a failed prefill. -/
theorem entryPoints_failed (nonempty : promptTokens ≠ []) {failure : Failure}
    (called : engine.prefill calls promptTokens = (.error failure, next)) :
    engine.generate calls promptTokens maxTokens = (.error failure, next) ∧
      engine.generateTracked calls promptTokens maxTokens tracker = (.error failure, tracker ++ [.admission], next) ∧
      engine.stream calls promptTokens maxTokens ⟨true, received⟩ = (.error failure, ⟨true, received⟩, next) := by
  simp only [generate, generateTracked, stream, if_neg nonempty, called, true_and]

/-- The entry points after a prefill run the same decode loop. -/
theorem entryPoints_decode (nonempty : promptTokens ≠ []) {logits : Logits}
    (called : engine.prefill calls promptTokens = (.ok logits, next)) :
    let decoded := decode calls maxTokens promptTokens.length logits next.observePrefill
    let records := tracker ++ [.admission] ++ tokenRecords false decoded.tokens.length
    engine.generate calls promptTokens maxTokens = (match decoded.ended with
      | .error failure => (.error failure, decoded.engine)
      | .ok _ => (.ok decoded.tokens,
          (decoded.engine.countTokens decoded.tokens.length).recordRequest decoded.tokens.length)) ∧
    engine.generateTracked calls promptTokens maxTokens tracker = (match decoded.ended with
      | .error failure => (.error failure, records, decoded.engine)
      | .ok _ => (.ok decoded.tokens, records,
          ((decoded.engine.countTokens decoded.tokens.length).recordRequest decoded.tokens.length).aggregate
            records)) ∧
    engine.stream calls promptTokens maxTokens ⟨true, received⟩ = (match decoded.ended with
      | .error failure => (.error failure, ⟨true, received ++ decoded.tokens⟩, decoded.engine)
      | .ok _ => (.ok decoded.tokens.length, ⟨true, received ++ decoded.tokens⟩,
          decoded.engine.countTokens decoded.tokens.length)) := by
  simp only [generate, generateTracked, stream, if_neg nonempty, called, generateLoop_eq, trackedLoop_eq,
    streamingLoop_eq, nil_append, Nat.zero_add]
  cases (decode calls maxTokens promptTokens.length logits next.observePrefill).ended with
  | error failure => exact ⟨rfl, rfl, rfl⟩
  | ok _ => exact ⟨rfl, rfl, rfl⟩

/-- The entry points agree in everything but the statistics of the engine. -/
theorem entryPoints_agree : Agree calls engine promptTokens maxTokens tracker received := by
  by_cases empty : promptTokens = []
  · obtain ⟨plain, tracked, streamed⟩ := entryPoints_empty calls engine promptTokens maxTokens tracker received empty
    constructor <;> simp only [generateStreaming, generateStreamingSync, plain, tracked, streamed]
    · rfl
    · rfl
    · rintro tokens ⟨⟩
      exact (append_nil _).symm
    · rintro tokens ⟨⟩
      rfl
    all_goals exact ⟨rfl, rfl, rfl⟩
  rcases called : engine.prefill calls promptTokens with ⟨result, next⟩
  cases result with
  | error failure =>
      obtain ⟨plain, tracked, streamed⟩ :=
        entryPoints_failed calls engine promptTokens maxTokens tracker received empty called
      constructor <;> simp only [generateStreaming, generateStreamingSync, plain, tracked, streamed]
      · rfl
      · rfl
      · rintro tokens ⟨⟩
      · rintro tokens ⟨⟩
      all_goals exact ⟨rfl, rfl, rfl⟩
  | ok logits =>
      obtain ⟨plain, tracked, streamed⟩ :=
        entryPoints_decode calls engine promptTokens maxTokens tracker received empty called
      cases ended : (decode calls maxTokens promptTokens.length logits next.observePrefill).ended with
      | error failure =>
          rw [ended] at plain tracked streamed
          constructor <;> simp only [generateStreaming, generateStreamingSync, plain, tracked, streamed]
          · rfl
          · rfl
          · rintro tokens ⟨⟩
          · rintro tokens ⟨⟩
          all_goals exact ⟨rfl, rfl, rfl⟩
      | ok _ =>
          rw [ended] at plain tracked streamed
          constructor <;> simp only [generateStreaming, generateStreamingSync, plain, tracked, streamed]
          · rfl
          · rfl
          · rintro tokens ⟨⟩
            rfl
          · rintro tokens ⟨⟩
            rw [countP_append, countP_append, countP_tokenRecords]
            rfl
          all_goals exact ⟨rfl, rfl, rfl⟩

theorem variants_restore (params : Params) (seed : UInt64) (tx : Channel) :
    Restores calls engine promptTokens maxTokens params seed tx :=
  ⟨rfl, rfl, rfl, rfl, rfl, rfl, rfl, rfl⟩

/-- The statistics count alike exactly on the calls without a counted token. -/
theorem countedAlike_iff : CountedAlike calls engine promptTokens maxTokens tracker received ↔
    Silent calls engine promptTokens maxTokens := by
  rw [Silent]
  by_cases empty : promptTokens = []
  · obtain ⟨plain, tracked, streamed⟩ := entryPoints_empty calls engine promptTokens maxTokens tracker received empty
    refine ⟨fun _ => Or.inl empty, fun _ => ?_⟩
    constructor <;> simp only [generateStreaming, generateStreamingSync, plain, tracked, streamed]
  simp only [empty, false_or]
  rcases called : engine.prefill calls promptTokens with ⟨result, next⟩
  have result_eq : (calls.forwardPrefill promptTokens 0 engine.model).1 = result := congrArg Prod.fst called
  have next_eq : { engine with model := (calls.forwardPrefill promptTokens 0 engine.model).2 } = next :=
    congrArg Prod.snd called
  cases result with
  | error failure =>
      obtain ⟨plain, tracked, streamed⟩ :=
        entryPoints_failed calls engine promptTokens maxTokens tracker received empty called
      rw [result_eq]
      refine ⟨fun _ logits wrong => (nomatch wrong), fun _ => ?_⟩
      constructor <;> simp only [generateStreaming, generateStreamingSync, plain, tracked, streamed]
  | ok logits =>
      obtain ⟨plain, tracked, streamed⟩ :=
        entryPoints_decode calls engine promptTokens maxTokens tracker received empty called
      have completes := decode_ended calls maxTokens promptTokens.length logits next.observePrefill
      have silent := decode_tokens_nil calls maxTokens promptTokens.length logits next.observePrefill
      subst next_eq
      change _ ↔ Completes calls maxTokens promptTokens.length logits _ engine.sampler at completes
      change _ ↔ _ ∨ (calls.sample logits engine.sampler).1 = _ at silent
      have given : (∀ logits', (calls.forwardPrefill promptTokens 0 engine.model).1 = .ok logits' → maxTokens = 0 ∨
          (calls.sample logits' engine.sampler).1 = .ok eosTokenId ∨ ¬Completes calls maxTokens promptTokens.length
            logits' (calls.forwardPrefill promptTokens 0 engine.model).2 engine.sampler) ↔
          maxTokens = 0 ∨ (calls.sample logits engine.sampler).1 = .ok eosTokenId ∨ ¬Completes calls maxTokens
            promptTokens.length logits (calls.forwardPrefill promptTokens 0 engine.model).2 engine.sampler := by
        rw [result_eq]
        constructor
        · intro all
          exact all logits rfl
        · rintro one _ ⟨⟩
          exact one
      rw [given, ← or_assoc, ← silent]
      change _ ↔ _ ∨ ¬Completes calls maxTokens promptTokens.length logits
        ({ engine with model := (calls.forwardPrefill promptTokens 0 engine.model).2 }.observePrefill).model
        engine.sampler
      rw [← completes]
      generalize decode calls maxTokens promptTokens.length logits
        ({ engine with model := (calls.forwardPrefill promptTokens 0 engine.model).2 }.observePrefill) = decoded
        at plain tracked streamed
      cases ended : decoded.ended with
      | error failure =>
          rw [ended] at plain tracked streamed
          refine ⟨fun _ => Or.inr (fun wrong => nomatch wrong), fun _ => ?_⟩
          constructor <;> simp only [generateStreaming, generateStreamingSync, plain, tracked, streamed]
      | ok _ =>
          rw [ended] at plain tracked streamed
          constructor
          · intro alike
            have counted := alike.streamed
            simp only [generateStreaming, plain, streamed] at counted
            change decoded.engine.stats.totalTokensGenerated =
              decoded.engine.stats.totalTokensGenerated + decoded.tokens.length at counted
            exact Or.inl ⟨length_eq_zero_iff.mp (by omega), rfl⟩
          · rintro (⟨quiet, _⟩ | failed)
            · constructor <;> simp only [generateStreaming, generateStreamingSync, plain, tracked, streamed]
              all_goals simp only [quiet, length_nil, aggregate, recordRequest, countTokens, Nat.add_zero]
            · exact absurd rfl failed

/-- The entry points and their variants agree exactly on the calls without a counted token. -/
theorem entryPoints_agree_iff (params : Params) (seed : UInt64) (tx : Channel) :
    (Agree calls engine promptTokens maxTokens tracker received ∧
      CountedAlike calls engine promptTokens maxTokens tracker received ∧
      Restores calls engine promptTokens maxTokens params seed tx) ↔ Silent calls engine promptTokens maxTokens := by
  constructor
  · rintro ⟨_, counted, _⟩
    exact (countedAlike_iff calls engine promptTokens maxTokens tracker received).mp counted
  · intro silent
    refine ⟨entryPoints_agree calls engine promptTokens maxTokens tracker received, ?_,
      variants_restore calls engine promptTokens maxTokens params seed tx⟩
    exact (countedAlike_iff calls engine promptTokens maxTokens tracker received).mpr silent

end Agreement

/-- Every call succeeds, and the next token is always 7. -/
def constantCalls : EngineCalls Unit Unit Unit Unit Empty where
  forwardPrefill := fun _ _ _ => (.ok (), ())
  forward := fun _ _ _ => (.ok (), ())
  sample := fun _ sampler => (.ok 7, sampler)
  seeded := fun _ => ()

def idleEngine : InferenceEngine Unit Unit Unit := ⟨(), ⟨(), ()⟩, none, ⟨0, 0⟩, none⟩

/-- One generated token is counted by the plain call, and a streamed one is not. -/
theorem constantCalls_uncounted : (idleEngine.generate constantCalls [1] 1).2.stats.totalTokensGenerated = 1 ∧
      (idleEngine.generateStreaming constantCalls [1] 1 ⟨true, []⟩).2.1.received = [7] ∧
      (idleEngine.generateStreaming constantCalls [1] 1 ⟨true, []⟩).2.2.stats.totalTokensGenerated = 0 ∧
      ¬(Agree constantCalls idleEngine [1] 1 [] [] ∧ CountedAlike constantCalls idleEngine [1] 1 [] [] ∧
        Restores constantCalls idleEngine [1] 1 () 0 ⟨true, []⟩) := by
  refine ⟨rfl, rfl, rfl, ?_⟩
  rintro ⟨_, counted, _⟩
  cases counted.streamed

end Pictor.InferenceEngine
