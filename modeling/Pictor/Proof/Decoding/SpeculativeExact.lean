import Mathlib.Data.List.Induction
import Pictor.Construction.Decoding.SpeculativeDecoding
import Pictor.Library.Unrolling

namespace Pictor.SpeculativeDecoding
open InferenceEngine List

variable {Entry Cache : Type} (model : GreedyModel Entry)

/-- The entries of a run over the tokens alone. -/
def entries (tokens : List UInt32) : List Entry :=
  tokens.foldl (fun entries token => entries ++ [model.compute entries token]) []

/-- The prediction after a context. -/
def following (context : List UInt32) : UInt32 := model.predict (entries model context)

/-- Plain greedy decoding stops at an EOS. -/
def greedyNext (context : List UInt32) : Except Empty (Option UInt32) :=
  .ok (if following model context = eosTokenId then none else some (following model context))

/-- The predictions after each token of a batch. -/
def predictions (context : List UInt32) : List UInt32 → List UInt32
  | [] => []
  | token :: rest => following model (context ++ [token]) :: predictions (context ++ [token]) rest

/-- The greedy tokens that a draft confirms: up to the first one that was not drafted. -/
def confirmed (context : List UInt32) : List UInt32 → List UInt32
  | [] => if following model context = eosTokenId then [] else [following model context]
  | drafted :: draft =>
      if following model context = eosTokenId then []
      else following model context ::
        if drafted = following model context then confirmed (context ++ [drafted]) draft else []

/-- The first entries are those of the tokens. -/
def Held (kv : Nat → Entry) (tokens : List UInt32) : Prop := before kv tokens.length = entries model tokens

variable {model} {kv : Nat → Entry} {context : List UInt32}

theorem entries_concat (tokens : List UInt32) (token : UInt32) :
    entries model (tokens ++ [token]) = entries model tokens ++ [model.compute (entries model tokens) token] := by
  rw [entries, foldl_concat, entries]

theorem before_succ (kv : Nat → Entry) (pos : Nat) : before kv (pos + 1) = before kv pos ++ [kv pos] := by
  rw [before, List.range_succ, map_append, before]
  rfl

theorem before_congr {kv' : Nat → Entry} {pos : Nat} (same : ∀ index < pos, kv' index = kv index) :
    before kv' pos = before kv pos :=
  map_congr_left fun index member => same index (mem_range.mp member)

variable {tokens : List UInt32}

theorem Held.start {rest : List UInt32} (held : Held model kv (tokens ++ rest)) : Held model kv tokens := by
  induction rest using List.reverseRecOn with
  | nil => rwa [append_nil] at held
  | append_singleton rest token ih =>
      apply ih
      rw [← append_assoc, Held, length_append, length_singleton, before_succ, entries_concat] at held
      exact (append_inj' held rfl).1

theorem Held.spoil {tokens : List UInt32} (held : Held model kv tokens) (garbage : Nat → Entry) :
    Held model (spoil tokens.length garbage kv) tokens := by
  rw [Held, ← held]
  exact before_congr fun index below => if_pos below

/-- A decoded token gives the prediction after it, and its entry is stored. -/
theorem Held.decode (held : Held model kv context) (token : UInt32) :
    (decode model token context.length kv).1 = following model (context ++ [token]) ∧
      Held model (decode model token context.length kv).2 (context ++ [token]) := by
  have stored : before (Function.update kv context.length (model.compute (before kv context.length) token))
      (context.length + 1) = entries model (context ++ [token]) := by
    rw [before_succ, entries_concat, Function.update_self, held]
    congr 1
    rw [← held]
    exact before_congr fun index below => Function.update_of_ne (Nat.ne_of_lt below) _ _
  constructor
  · simp only [SpeculativeDecoding.decode, stored, following]
  · rw [Held, length_append, length_singleton]
    exact stored

theorem Held.forwardBatch (held : Held model kv context) (tokens : List UInt32) :
    (forwardBatch model tokens context.length kv).1 = predictions model context tokens ∧
      Held model (forwardBatch model tokens context.length kv).2 (context ++ tokens) := by
  induction tokens generalizing context kv with
  | nil =>
      rw [append_nil]
      exact ⟨rfl, held⟩
  | cons token rest ih =>
      obtain ⟨predicted, held'⟩ := held.decode token
      have later := ih held'
      rw [length_append, length_singleton, append_assoc, singleton_append] at later
      simp only [SpeculativeDecoding.forwardBatch, predictions, predicted]
      exact ⟨congrArg _ later.1, later.2⟩

theorem predictions_concat (tokens : List UInt32) (token : UInt32) : predictions model context (tokens ++ [token]) =
      predictions model context tokens ++ [following model (context ++ tokens ++ [token])] := by
  induction tokens generalizing context with
  | nil => rw [append_nil]; rfl
  | cons first rest ih =>
      rw [cons_append, predictions, predictions, ih, cons_append, append_assoc context,
        singleton_append]

/-- The confirmed tokens are greedy tokens. -/
theorem confirmed_extends (draft : List UInt32) : Extends (greedyNext model) context (confirmed model context draft) := by
  induction draft generalizing context with
  | nil =>
      rw [confirmed]
      split
      · trivial
      · rename_i more
        exact ⟨by rw [greedyNext, if_neg more], trivial⟩
  | cons drafted draft ih =>
      rw [confirmed]
      split
      · trivial
      · rename_i more
        refine ⟨by rw [greedyNext, if_neg more], ?_⟩
        split
        · rename_i same
          rw [← same]
          exact ih
        · trivial

theorem Extends.ne_eos (extended : Extends (greedyNext model) context tokens) :
    ∀ token ∈ tokens, token ≠ eosTokenId := by
  induction tokens generalizing context with
  | nil =>
      intro token member
      cases member
  | cons token rest ih =>
      intro other member
      rcases mem_cons.mp member with rfl | later
      · rintro rfl
        have next := extended.1
        rw [greedyNext] at next
        split at next
        · cases next
        · rename_i more
          exact more (Option.some.inj (Except.ok.inj next))
      · exact ih extended.2 other later

/-- The accepted tokens and the prediction behind them are the confirmed tokens. -/
structure Verified (model : GreedyModel Entry) (context draft modelPreds : List UInt32) (accepted : Nat) : Prop where
  inside : accepted ≤ draft.length
  eosDrafted : (draft.take accepted).contains eosTokenId = true →
    (draft.take accepted).takeWhile (· ≠ eosTokenId) = confirmed model context draft ∧
      following model (context ++ confirmed model context draft) = eosTokenId
  noEos : (draft.take accepted).contains eosTokenId = false →
    (draft.take accepted).takeWhile (· ≠ eosTokenId) = draft.take accepted ∧
      ∃ bonus, modelPreds[accepted]? = some bonus ∧ bonus = following model (context ++ draft.take accepted) ∧
        confirmed model context draft =
          draft.take accepted ++ if bonus = eosTokenId then [] else [bonus]

theorem verified_draft (draft : List UInt32) :
    Verified model context draft (following model context :: predictions model context draft)
      (Loop.acceptedCount draft (following model context :: predictions model context draft)) := by
  induction draft generalizing context with
  | nil =>
      refine ⟨Nat.le_refl 0, fun wrong => (nomatch wrong), fun _ => ⟨rfl, following model context, rfl, ?_, rfl⟩⟩
      rw [take_nil, append_nil]
  | cons drafted draft ih =>
      rw [Loop.acceptedCount]
      by_cases same : drafted = following model context
      · rw [if_pos same]
        have rest : Verified model (context ++ [drafted]) draft (predictions model context (drafted :: draft))
            (Loop.acceptedCount draft (predictions model context (drafted :: draft))) := ih
        generalize Loop.acceptedCount draft (predictions model context (drafted :: draft)) = accepted at *
        by_cases eos : drafted = eosTokenId
        · have empty : confirmed model context (drafted :: draft) = [] := by
            rw [confirmed, if_pos (same.symm.trans eos)]
          refine ⟨Nat.succ_le_succ rest.inside, fun _ => ⟨?_, ?_⟩, fun wrong => ?_⟩
          · rw [empty, take_succ_cons, takeWhile_cons_of_neg (by simp [eos])]
          · rw [empty, append_nil, ← same, eos]
          · rw [take_succ_cons, eos] at wrong
            simp at wrong
        · have more : confirmed model context (drafted :: draft) =
              drafted :: confirmed model (context ++ [drafted]) draft := by
            rw [confirmed, if_neg (same ▸ eos), if_pos same, ← same]
          have contained : ((drafted :: draft).take (accepted + 1)).contains eosTokenId =
              (draft.take accepted).contains eosTokenId := by
            rw [take_succ_cons, contains_cons]
            simp [Ne.symm eos]
          have leading : ((drafted :: draft).take (accepted + 1)).takeWhile (· ≠ eosTokenId) =
              drafted :: (draft.take accepted).takeWhile (· ≠ eosTokenId) := by
            rw [take_succ_cons, takeWhile_cons_of_pos (by simp [eos])]
          refine ⟨Nat.succ_le_succ rest.inside, fun found => ?_, fun missing => ?_⟩
          · obtain ⟨taken, stopped⟩ := rest.eosDrafted (contained ▸ found)
            rw [leading, more, taken]
            refine ⟨rfl, ?_⟩
            rwa [append_assoc, singleton_append] at stopped
          · obtain ⟨taken, bonus, present, predicted, added⟩ := rest.noEos (contained ▸ missing)
            rw [leading, more, taken, take_succ_cons]
            refine ⟨rfl, bonus, present, ?_, ?_⟩
            · rwa [append_assoc, singleton_append] at predicted
            · rw [added, cons_append]
      · rw [if_neg same]
        refine ⟨Nat.zero_le _, fun wrong => (nomatch wrong), fun _ => ⟨rfl, following model context, rfl, ?_, ?_⟩⟩
        · rw [take_zero, append_nil]
        · rw [confirmed, if_neg same]
          rfl

end Pictor.SpeculativeDecoding

namespace Pictor.SpeculativeDecoding
open InferenceEngine List

variable {Entry Cache : Type} {setup : Setup Entry Cache} {promptTokens : List UInt32} {maxTokens : Nat}
  {kv : Nat → Entry} {state : Loop Entry Cache}

/-- The last token of the output is decoded next, behind the entries of all tokens before it. -/
def KvSettled (setup : Setup Entry Cache) (promptTokens : List UInt32) (state : Loop Entry Cache) : Prop :=
  ∃ settled, promptTokens ++ state.outputTokens = settled ++ [state.nextToken] ∧ state.pos = settled.length + 1 ∧
    Held setup.model state.kv settled

/-- The state of a run is settled, and its output consists of greedy tokens. -/
structure Settled (setup : Setup Entry Cache) (promptTokens : List UInt32) (state : Loop Entry Cache) : Prop where
  kv : KvSettled setup promptTokens state
  context : state.context = promptTokens ++ state.outputTokens
  greedy : Extends (greedyNext setup.model) promptTokens state.outputTokens

theorem Settled.last_ne_eos (settled : Settled setup promptTokens state) :
    state.outputTokens.getLast? ≠ some eosTokenId := fun last =>
  Extends.ne_eos settled.greedy _ (mem_of_getLast? last) rfl

/-- The iteration verifies a draft. -/
def Verifies (setup : Setup Entry Cache) (state : Loop Entry Cache) : Prop :=
  state.draft setup ≠ [] ∧ state.specOk = true ∧ (setup.faults state.outputTokens.length).verify = none

open Classical in
/-- The tokens that an iteration adds. -/
noncomputable def added (setup : Setup Entry Cache) (promptTokens : List UInt32) (state : Loop Entry Cache) :
    List UInt32 :=
  confirmed setup.model (promptTokens ++ state.outputTokens) (if Verifies setup state then state.draft setup else [])

/-- What an iteration can do after an output. -/
inductive Turned (setup : Setup Entry Cache) (promptTokens output tokens : List UInt32) :
    Except ModelError (Turn Entry Cache) → Prop where
  | failed : (setup.faults output.length).forward = true →
      Turned setup promptTokens output tokens (.error .forward)
  | stopped (later : Loop Entry Cache) : later.outputTokens = output ++ tokens →
      following setup.model (promptTokens ++ later.outputTokens) = eosTokenId →
      Turned setup promptTokens output tokens (.ok (.stop later))
  | turned (later : Loop Entry Cache) : later.outputTokens = output ++ tokens → tokens ≠ [] →
      Settled setup promptTokens later → Turned setup promptTokens output tokens (.ok (.next later))

theorem takeToken_turned (settled : Settled setup promptTokens state) {called : UInt32 × (Nat → Entry)}
    (predicted : called.1 = following setup.model (promptTokens ++ state.outputTokens))
    (held : Held setup.model called.2 (promptTokens ++ state.outputTokens)) :
    Turned setup promptTokens state.outputTokens (confirmed setup.model (promptTokens ++ state.outputTokens) [])
      (.ok (state.takeToken setup called)) := by
  obtain ⟨before, split, pos, _⟩ := settled.kv
  rw [Loop.takeToken, confirmed, predicted]
  by_cases eos : following setup.model (promptTokens ++ state.outputTokens) = eosTokenId
  · rw [if_pos eos, if_pos eos]
    exact .stopped _ (append_nil _).symm eos
  · rw [if_neg eos, if_neg eos]
    refine .turned _ rfl (cons_ne_nil _ _) ⟨⟨promptTokens ++ state.outputTokens, ?_, ?_, held⟩, ?_, ?_⟩
    · exact (append_assoc _ _ _).symm
    · change state.pos + 1 = _
      rw [split, pos, length_append, length_singleton]
    · change state.context ++ _ = promptTokens ++ (state.outputTokens ++ _)
      rw [settled.context, append_assoc]
    · exact settled.greedy.append ⟨by rw [greedyNext, if_neg eos], trivial⟩

/-- A single step decodes the last token, also after a failed call. -/
theorem singleStep_turned (settled : Settled setup promptTokens state) :
    Turned setup promptTokens state.outputTokens (confirmed setup.model (promptTokens ++ state.outputTokens) [])
      (state.singleStep setup) := by
  obtain ⟨before, split, pos, held⟩ := settled.kv
  have position : state.pos - 1 = before.length := by rw [pos, Nat.add_sub_cancel]
  rw [Loop.singleStep]
  cases (setup.faults state.outputTokens.length).greedy with
  | none =>
      have called := held.decode state.nextToken
      rw [← split] at called
      simp only [forwardGreedyGpu, position]
      exact takeToken_turned settled called.1 called.2
  | some garbage =>
      simp only
      split
      · rename_i failed
        exact .failed failed
      · have called := (held.spoil garbage).decode state.nextToken
        rw [← split] at called
        simp only [forwardArgmax, position]
        exact takeToken_turned settled called.1 called.2

/-- A verified draft adds the confirmed tokens. -/
theorem takeVerified_turned (settled : Settled setup promptTokens state) (draft : List UInt32)
    (held : Held setup.model state.kv (promptTokens ++ state.outputTokens ++ draft)) :
    Turned setup promptTokens state.outputTokens (confirmed setup.model (promptTokens ++ state.outputTokens) draft)
      (.ok (state.takeVerified setup draft (following setup.model (promptTokens ++ state.outputTokens) ::
          predictions setup.model (promptTokens ++ state.outputTokens) draft))) := by
  obtain ⟨before, split, pos, _⟩ := settled.kv
  have verified := @verified_draft _ setup.model (promptTokens ++ state.outputTokens) draft
  have greedy := settled.greedy.append (@confirmed_extends _ setup.model _ draft)
  rw [Loop.takeVerified]
  generalize following setup.model (promptTokens ++ state.outputTokens) ::
    predictions setup.model (promptTokens ++ state.outputTokens) draft = modelPreds at *
  generalize Loop.acceptedCount draft modelPreds = accepted at *
  cases contained : (draft.take accepted).contains eosTokenId with
  | true =>
      obtain ⟨taken, eos⟩ := verified.eosDrafted contained
      simp only [if_true, taken]
      refine .stopped _ rfl ?_
      change following setup.model (promptTokens ++ (state.outputTokens ++ _)) = _
      rwa [← append_assoc]
  | false =>
      obtain ⟨taken, bonus, present, predicted, sum⟩ := verified.noEos contained
      have inside : accepted < modelPreds.length := (List.getElem?_eq_some_iff.mp present).1
      simp only [Bool.false_eq_true, if_false, inside, if_true, present, taken]
      by_cases eos : bonus = eosTokenId
      · rw [if_pos eos, append_nil] at sum
        rw [if_pos eos, sum]
        refine .stopped _ rfl ?_
        change following setup.model (promptTokens ++ (state.outputTokens ++ _)) = _
        rw [← append_assoc, ← predicted, eos]
      · rw [if_neg eos] at sum
        rw [if_neg eos, sum] 
        rw [sum] at greedy
        have accepts : Held setup.model state.kv (promptTokens ++ state.outputTokens ++ draft.take accepted) := by
          rw [← take_append_drop accepted draft, ← append_assoc] at held
          exact held.start
        refine .turned _ ?_ (append_ne_nil_of_right_ne_nil _ (cons_ne_nil _ _))
          ⟨⟨promptTokens ++ state.outputTokens ++ draft.take accepted, ?_, ?_, accepts⟩, ?_, ?_⟩
        · exact append_assoc _ _ _
        · change promptTokens ++ (state.outputTokens ++ _ ++ _) = _
          simp only [append_assoc]
          rfl
        · change state.pos + (accepted + 1) = _
          rw [length_append, split, pos, length_append, length_take, Nat.min_eq_left verified.inside,
            length_singleton]
          omega
        · change state.context ++ _ ++ _ = promptTokens ++ (state.outputTokens ++ _ ++ _)
          rw [settled.context]
          simp only [append_assoc]
        · change Extends _ _ (state.outputTokens ++ _ ++ _)
          rwa [append_assoc]

theorem Settled.spoil (settled : Settled setup promptTokens state) (garbage : Nat → Entry) :
    Settled setup promptTokens { state with kv := spoil (state.pos - 1) garbage state.kv } := by
  obtain ⟨before, split, pos, held⟩ := settled.kv
  refine ⟨⟨before, split, pos, ?_⟩, settled.context, settled.greedy⟩
  rw [pos, Nat.add_sub_cancel]
  exact held.spoil garbage

theorem iterate_turned (settled : Settled setup promptTokens state) :
    Turned setup promptTokens state.outputTokens (added setup promptTokens state) (state.iterate setup) := by
  rw [Loop.iterate, added]
  by_cases drafts : state.draft setup ≠ [] ∧ state.specOk = true
  · rw [if_pos drafts]
    cases fault : (setup.faults state.outputTokens.length).verify with
    | none =>
        rw [if_pos ⟨drafts.1, drafts.2, fault⟩]
        obtain ⟨before, split, pos, held⟩ := settled.kv
        have batch := held.forwardBatch (state.nextToken :: state.draft setup)
        have position : state.pos - 1 = before.length := by rw [pos, Nat.add_sub_cancel]
        rw [predictions, ← split] at batch
        simp only [forwardPrefillVerify, position, batch.1]
        have whole : before ++ state.nextToken :: state.draft setup =
            promptTokens ++ state.outputTokens ++ state.draft setup := by
          rw [split, append_assoc, singleton_append]
        rw [whole] at batch
        have verified : Settled setup promptTokens
            { state with kv := (forwardBatch setup.model (state.nextToken :: state.draft setup) before.length state.kv).2 } := by
          refine ⟨⟨before, split, pos, ?_⟩, settled.context, settled.greedy⟩
          have kept := batch.2
          rw [split, append_assoc] at kept
          exact kept.start
        exact takeVerified_turned verified (state.draft setup) batch.2
    | some garbage =>
        rw [if_neg (fun verifies => by rw [verifies.2.2] at fault; cases fault)]
        exact singleStep_turned (settled.spoil garbage)
  · rw [if_neg drafts, if_neg (fun verifies => drafts ⟨verifies.1, verifies.2.1⟩)]
    exact singleStep_turned settled

/-- The states at the head of the loop. -/
inductive Reached (setup : Setup Entry Cache) (kv : Nat → Entry) (promptTokens : List UInt32) (maxTokens : Nat) :
    Loop Entry Cache → Prop where
  | start : promptTokens ≠ [] → (forwardPrefill setup.model promptTokens kv).1 ≠ eosTokenId →
      Reached setup kv promptTokens maxTokens (Loop.start setup promptTokens
        (forwardPrefill setup.model promptTokens kv).2 (forwardPrefill setup.model promptTokens kv).1)
  | turn {state later : Loop Entry Cache} : Reached setup kv promptTokens maxTokens state →
      state.Running (promptTokens.length + maxTokens) maxTokens → state.iterate setup = .ok (.next later) →
      Reached setup kv promptTokens maxTokens later

theorem forwardPrefill_spec (nonempty : promptTokens ≠ []) :
    (forwardPrefill setup.model promptTokens kv).1 = following setup.model promptTokens ∧
      Held setup.model (forwardPrefill setup.model promptTokens kv).2 promptTokens := by
  obtain ⟨init, last, rfl⟩ := eq_nil_or_concat' promptTokens |>.resolve_left nonempty
  have batch := Held.forwardBatch (show Held setup.model kv [] from rfl) (init ++ [last])
  rw [predictions_concat, nil_append, nil_append] at batch
  refine ⟨?_, batch.2⟩
  change (forwardBatch setup.model (init ++ [last]) 0 kv).1.getLastD 0 = _
  change (forwardBatch setup.model (init ++ [last]) 0 kv).1 = _ ∧ _ at batch
  rw [batch.1, getLastD_concat]

theorem start_settled (nonempty : promptTokens ≠ [])
    (more : (forwardPrefill setup.model promptTokens kv).1 ≠ eosTokenId) :
    Settled setup promptTokens (Loop.start setup promptTokens (forwardPrefill setup.model promptTokens kv).2
      (forwardPrefill setup.model promptTokens kv).1) := by
  obtain ⟨predicted, held⟩ := @forwardPrefill_spec _ _ setup _ kv nonempty
  refine ⟨⟨promptTokens, rfl, rfl, held⟩, rfl, ⟨?_, trivial⟩⟩
  rw [predicted] at more ⊢
  rw [greedyNext, if_neg more]

theorem Reached.settled (reached : Reached setup kv promptTokens maxTokens state) :
    Settled setup promptTokens state := by
  induction reached with
  | start nonempty more => exact start_settled nonempty more
  | turn _ _ iterated ih =>
      have turned := iterate_turned ih
      rw [iterated] at turned
      cases turned with
      | turned _ _ _ settled => exact settled

variable {bound : Nat} {last : Loop Entry Cache}

/-- The output of the loop is greedy, and it ends at an EOS or fills the budget. -/
theorem run_greedy (settled : Settled setup promptTokens state) (enough : maxTokens ≤ state.outputTokens.length + bound)
    (ran : state.run setup (promptTokens.length + maxTokens) maxTokens bound = .ok last) :
    Extends (greedyNext setup.model) promptTokens last.outputTokens ∧
      state.outputTokens.length ≤ last.outputTokens.length ∧
      (following setup.model (promptTokens ++ last.outputTokens) = eosTokenId ∨ maxTokens ≤ last.outputTokens.length) := by
  induction bound generalizing state with
  | zero =>
      cases ran
      exact ⟨settled.greedy, Nat.le_refl _, Or.inr enough⟩
  | succ bound ih =>
      rw [Loop.run] at ran
      obtain ⟨before, split, pos, _⟩ := settled.kv
      have counted := congrArg List.length split
      rw [length_append, length_append, length_singleton, ← pos] at counted
      by_cases running : state.Running (promptTokens.length + maxTokens) maxTokens
      · rw [if_pos running] at ran
        have turned := iterate_turned settled
        cases iterated : state.iterate setup with
        | error error => rw [iterated] at ran; cases ran
        | ok turn =>
            rw [iterated] at ran turned
            cases turned with
            | stopped later output eos =>
                cases ran
                refine ⟨?_, ?_, Or.inl eos⟩
                · rw [output]
                  exact settled.greedy.append (confirmed_extends _)
                · rw [output, length_append]
                  exact Nat.le_add_right _ _
            | turned later output some' settled' =>
                have grown : state.outputTokens.length < later.outputTokens.length := by
                  have positive := length_pos_iff.mpr some'
                  rw [output, length_append]
                  omega
                simp only [if_neg settled'.last_ne_eos] at ran
                obtain ⟨greedy, longer, ends⟩ := ih settled' (by omega) ran
                exact ⟨greedy, by omega, ends⟩
      · rw [if_neg running] at ran
        cases ran
        refine ⟨settled.greedy, Nat.le_refl _, Or.inr ?_⟩
        rw [Loop.Running, not_and_or] at running
        omega

/-- The failures of the calls all have a fallback. -/
def Mild (setup : Setup Entry Cache) : Prop :=
  setup.prefillFails = false ∧ ∀ generated, (setup.faults generated).forward = false

theorem run_ok (mild : Mild setup) (settled : Settled setup promptTokens state) (bound : Nat) :
    ∃ last, state.run setup (promptTokens.length + maxTokens) maxTokens bound = .ok last := by
  induction bound generalizing state with
  | zero => exact ⟨state, rfl⟩
  | succ bound ih =>
      rw [Loop.run]
      split
      · have turned := iterate_turned settled
        cases iterated : state.iterate setup with
        | error error =>
            rw [iterated] at turned
            cases turned with
            | failed fault => rw [mild.2] at fault; cases fault
        | ok turn =>
            rw [iterated] at turned
            cases turned with
            | stopped later _ _ => exact ⟨later, rfl⟩
            | turned later _ _ settled' =>
                simp only
                split
                · exact ⟨_, rfl⟩
                · exact ih settled'
      · exact ⟨state, rfl⟩

/-- A reached state is an intermediate state of the run. -/
theorem Reached.run (reached : Reached setup kv promptTokens maxTokens state) :
    ∃ bound, maxTokens ≤ state.outputTokens.length + bound ∧
      (Loop.start setup promptTokens (forwardPrefill setup.model promptTokens kv).2
        (forwardPrefill setup.model promptTokens kv).1).run setup (promptTokens.length + maxTokens) maxTokens maxTokens =
        state.run setup (promptTokens.length + maxTokens) maxTokens bound := by
  induction reached with
  | start nonempty more => exact ⟨maxTokens, Nat.le_add_left _ _, rfl⟩
  | turn reached running iterated ih =>
      obtain ⟨bound, enough, same⟩ := ih
      have turned := iterate_turned reached.settled
      rw [iterated] at turned
      cases turned with
      | turned later output some' settled' =>
          have positive := length_pos_iff.mpr some'
          have grown := congrArg List.length output
          rw [length_append] at grown
          cases bound with
          | zero => exact absurd running.2 (by omega)
          | succ bound =>
              refine ⟨bound, by omega, ?_⟩
              rw [same, Loop.run, if_pos running, iterated]
              exact if_neg settled'.last_ne_eos

/-- Each verified draft confirms at most as many tokens as the budget has left. -/
def BatchesFit (setup : Setup Entry Cache) (kv : Nat → Entry) (promptTokens : List UInt32) (maxTokens : Nat) : Prop :=
  ∀ state, Reached setup kv promptTokens maxTokens state →
    state.Running (promptTokens.length + maxTokens) maxTokens → Verifies setup state →
    state.outputTokens.length +
      (confirmed setup.model (promptTokens ++ state.outputTokens) (state.draft setup)).length ≤ maxTokens

theorem added_length_le (fit : BatchesFit setup kv promptTokens maxTokens)
    (reached : Reached setup kv promptTokens maxTokens state)
    (running : state.Running (promptTokens.length + maxTokens) maxTokens) :
    state.outputTokens.length + (added setup promptTokens state).length ≤ maxTokens := by
  rw [added]
  by_cases verifies : Verifies setup state
  · rw [if_pos verifies]
    exact fit state reached running verifies
  · rw [if_neg verifies, confirmed]
    have room := running.2
    split
    · rw [length_nil]
      omega
    · rw [length_singleton]
      omega

/-- With fitting batches the output keeps within the budget. -/
theorem run_within (fit : BatchesFit setup kv promptTokens maxTokens)
    (reached : Reached setup kv promptTokens maxTokens state) (within : state.outputTokens.length ≤ maxTokens)
    (ran : state.run setup (promptTokens.length + maxTokens) maxTokens bound = .ok last) :
    last.outputTokens.length ≤ maxTokens := by
  induction bound generalizing state with
  | zero =>
      cases ran
      exact within
  | succ bound ih =>
      rw [Loop.run] at ran
      by_cases running : state.Running (promptTokens.length + maxTokens) maxTokens
      · rw [if_pos running] at ran
        have short := added_length_le fit reached running
        have turned := iterate_turned reached.settled
        cases iterated : state.iterate setup with
        | error error => rw [iterated] at ran; cases ran
        | ok turn =>
            rw [iterated] at ran turned
            cases turned with
            | stopped later output _ =>
                cases ran
                rw [output, length_append]
                exact short
            | turned later output some' settled' =>
                simp only [if_neg settled'.last_ne_eos] at ran
                refine ih (.turn reached running iterated) ?_ ran
                rw [output, length_append]
                exact short
      · rw [if_neg running] at ran
        cases ran
        exact within

/-- A batch that does not fit is the end of a run that exceeds the budget. -/
theorem run_exceeds (reached : Reached setup kv promptTokens maxTokens state)
    (running : state.Running (promptTokens.length + maxTokens) maxTokens)
    (long : maxTokens < state.outputTokens.length + (added setup promptTokens state).length)
    (ran : (Loop.start setup promptTokens (forwardPrefill setup.model promptTokens kv).2 (forwardPrefill setup.model promptTokens kv).1).run setup (promptTokens.length + maxTokens) maxTokens maxTokens = .ok last) : maxTokens < last.outputTokens.length := by
  obtain ⟨bound, enough, same⟩ := reached.run
  rw [same] at ran
  have room := running.2
  cases bound with
  | zero => omega
  | succ bound =>
      rw [Loop.run, if_pos running] at ran
      have turned := iterate_turned reached.settled
      cases iterated : state.iterate setup with
      | error error => rw [iterated] at ran; cases ran
      | ok turn =>
          rw [iterated] at ran turned
          cases turned with
          | stopped later output _ =>
              cases ran
              rw [output, length_append]
              exact long
          | turned later output some' settled' =>
              simp only [if_neg settled'.last_ne_eos] at ran
              have grown := congrArg List.length output
              rw [length_append] at grown
              have after := (run_greedy settled' (by omega) ran).2.1
              omega

/-- The budget is not exceeded: an empty prompt has no greedy token, a budget of zero has no first token, and each
verified draft fits. -/
def Fits (setup : Setup Entry Cache) (kv : Nat → Entry) (promptTokens : List UInt32) (maxTokens : Nat) : Prop :=
  (promptTokens = [] ∨ maxTokens = 0 → maxTokens = 0 ∧ promptTokens = [] ∨
    following setup.model promptTokens = eosTokenId) ∧ BatchesFit setup kv promptTokens maxTokens

/-- The tokens of plain greedy decoding. -/
def GreedyTokens (setup : Setup Entry Cache) (promptTokens : List UInt32) (maxTokens : Nat) (output : List UInt32) :
    Prop := unroll (greedyNext setup.model) maxTokens promptTokens = .ok output

theorem greedyTokens_iff {output : List UInt32} : GreedyTokens setup promptTokens maxTokens output ↔
    Extends (greedyNext setup.model) promptTokens output ∧ (output.length = maxTokens ∨
      output.length < maxTokens ∧ following setup.model (promptTokens ++ output) = eosTokenId) := by
  rw [GreedyTokens, unroll_eq_ok_iff, greedyNext]
  have stops : (Except.ok (if following setup.model (promptTokens ++ output) = eosTokenId then none
      else some (following setup.model (promptTokens ++ output))) : Except Empty (Option UInt32)) = .ok none ↔
      following setup.model (promptTokens ++ output) = eosTokenId := by
    split <;> simp_all
  rw [stops]

/-- Greedy generation returns the greedy tokens, always behind settled entries, exactly if the budget is not
exceeded. -/
theorem generateGreedyGpu_exact_iff (setup : Setup Entry Cache) (mild : Mild setup) (kv : Nat → Entry)
    (promptTokens : List UInt32) (maxTokens : Nat) :
    ((∃ output, generateGreedyGpu setup kv promptTokens maxTokens = .ok output ∧
        GreedyTokens setup promptTokens maxTokens output) ∧
      ∀ state, Reached setup kv promptTokens maxTokens state → KvSettled setup promptTokens state) ↔
      Fits setup kv promptTokens maxTokens := by
  have settled : ∀ state, Reached setup kv promptTokens maxTokens state → KvSettled setup promptTokens state :=
    fun state reached => reached.settled.kv
  rw [and_iff_left settled, Fits]
  by_cases empty : promptTokens = []
  · have fit : BatchesFit setup kv promptTokens maxTokens := by
      intro state reached
      have nonempty : promptTokens ≠ [] := by
        induction reached with
        | start nonempty _ => exact nonempty
        | turn _ _ _ ih => exact ih
      exact absurd empty nonempty
    rw [and_iff_left fit, generateGreedyGpu, if_pos empty]
    have output : (∃ output, (Except.ok [] : Except ModelError (List UInt32)) = .ok output ∧
        GreedyTokens setup promptTokens maxTokens output) ↔ GreedyTokens setup promptTokens maxTokens [] :=
      ⟨fun ⟨_, same, greedy⟩ => by cases same; exact greedy, fun greedy => ⟨[], rfl, greedy⟩⟩
    rw [output, greedyTokens_iff, append_nil, length_nil]
    simp only [empty, Extends, true_and, true_or, and_true, forall_const]
    constructor
    · rintro (zero | ⟨_, eos⟩)
      · exact Or.inl zero.symm
      · exact Or.inr eos
    · rintro (zero | eos)
      · exact Or.inl zero.symm
      · rcases Nat.eq_zero_or_pos maxTokens with zero | positive
        · exact Or.inl zero.symm
        · exact Or.inr ⟨positive, eos⟩
  obtain ⟨predicted, _⟩ := @forwardPrefill_spec _ _ setup _ kv empty
  rw [generateGreedyGpu, if_neg empty, mild.1]
  simp only [Bool.false_eq_true, if_false, empty, false_or, and_false]
  by_cases eos : following setup.model promptTokens = eosTokenId
  · have fit : BatchesFit setup kv promptTokens maxTokens := by
      intro state reached
      have more : (forwardPrefill setup.model promptTokens kv).1 ≠ eosTokenId := by
        induction reached with
        | start _ more => exact more
        | turn _ _ _ ih => exact ih
      exact absurd (predicted.trans eos) more
    rw [predicted, if_pos eos]
    refine ⟨fun _ => ⟨fun _ => eos, fit⟩, fun _ => ⟨[], rfl, greedyTokens_iff.mpr ⟨trivial, ?_⟩⟩⟩
    rw [append_nil, length_nil]
    rcases Nat.eq_zero_or_pos maxTokens with zero | positive
    · exact Or.inl zero.symm
    · exact Or.inr ⟨positive, eos⟩
  have more : (forwardPrefill setup.model promptTokens kv).1 ≠ eosTokenId := by rwa [predicted]
  have reached : Reached setup kv promptTokens maxTokens _ := .start empty more
  obtain ⟨last, ran⟩ := @run_ok _ _ _ _ maxTokens _ mild reached.settled maxTokens
  obtain ⟨greedy, longer, ends⟩ := run_greedy reached.settled (Nat.le_add_left _ _) ran
  have positive : 1 ≤ last.outputTokens.length := longer
  rw [if_neg more, ran]
  constructor
  · rintro ⟨output, same, greedyTokens⟩
    cases same
    have short : last.outputTokens.length ≤ maxTokens := by
      rcases (greedyTokens_iff.mp greedyTokens).2 with full | ⟨less, _⟩ <;> omega
    refine ⟨fun zero => by omega, fun state reached running verifies => ?_⟩
    by_contra long
    have exceeds := run_exceeds reached running (by rw [added, if_pos verifies]; omega) ran
    omega
  · rintro ⟨budget, fit⟩
    have nonzero : maxTokens ≠ 0 := fun zero => eos (budget zero)
    have short := run_within fit reached (Nat.one_le_iff_ne_zero.mpr nonzero) ran
    refine ⟨last.outputTokens, rfl, greedyTokens_iff.mpr ⟨greedy, ?_⟩⟩
    rcases ends with stopped | full
    · rcases Nat.lt_or_eq_of_le short with less | same
      · exact Or.inr ⟨less, stopped⟩
      · exact Or.inl same
    · exact Or.inl (Nat.le_antisymm short full)

/-- The model always predicts the token 7, and every draft repeats it. -/
def repeatedDrafts : Setup Unit Unit where
  model := ⟨fun _ _ => (), fun _ => 7⟩
  drafter := ⟨(), fun _ _ => (), fun _ _ lookahead => List.replicate lookahead 7⟩
  specEnabled := true
  prefillFails := false
  faults := fun _ => ⟨none, none, false⟩

theorem repeatedDrafts_exact_iff : ((∃ output, generateGreedyGpu repeatedDrafts (fun _ => ()) [1] 16 = .ok output ∧
        GreedyTokens repeatedDrafts [1] 16 output) ∧
      ∀ state, Reached repeatedDrafts (fun _ => ()) [1] 16 state → KvSettled repeatedDrafts [1] state) ↔
      Fits repeatedDrafts (fun _ => ()) [1] 16 :=
  generateGreedyGpu_exact_iff repeatedDrafts ⟨rfl, fun _ => rfl⟩ (fun _ => ()) [1] 16

/-- After 15 tokens a draft of four tokens is accepted with one token left. A budget of zero gives one token. -/
theorem repeatedDrafts_exceeds : generateGreedyGpu repeatedDrafts (fun _ => ()) [1] 16 = .ok (List.replicate 20 7) ∧
      GreedyTokens repeatedDrafts [1] 16 (List.replicate 16 7) ∧
      generateGreedyGpu repeatedDrafts (fun _ => ()) [1] 0 = .ok [7] ∧ GreedyTokens repeatedDrafts [1] 0 [] ∧
      ¬((∃ output, generateGreedyGpu repeatedDrafts (fun _ => ()) [1] 16 = .ok output ∧
          GreedyTokens repeatedDrafts [1] 16 output) ∧
        ∀ state, Reached repeatedDrafts (fun _ => ()) [1] 16 state → KvSettled repeatedDrafts [1] state) := by
  have long : generateGreedyGpu repeatedDrafts (fun _ => ()) [1] 16 = .ok (List.replicate 20 7) := rfl
  have greedy : GreedyTokens repeatedDrafts [1] 16 (List.replicate 16 7) := rfl
  refine ⟨long, greedy, rfl, rfl, ?_⟩
  rintro ⟨⟨output, returned, tokens⟩, _⟩
  rw [long] at returned
  cases returned
  rw [GreedyTokens] at greedy tokens
  rw [greedy] at tokens
  cases tokens

end Pictor.SpeculativeDecoding
