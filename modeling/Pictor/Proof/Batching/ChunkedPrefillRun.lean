import Pictor.Construction.Batching.ChunkedPrefill

namespace Pictor.ChunkedPrefill
open BuildArith List

/-- The chunks cover the prompt: each begins in or behind the one in front of it and ends later. -/
structure Covers (promptTokens : List UInt32) (chunks : List PrefillChunk) : Prop where
  carries : ∀ chunk ∈ chunks, chunk.startPos ≤ chunk.endPos ∧ chunk.endPos ≤ promptTokens.length ∧
    chunk.tokens = (promptTokens.drop chunk.startPos).take (chunk.endPos - chunk.startPos)
  numbered : ∀ (index : Nat) (chunk : PrefillChunk), chunks[index]? = some chunk → chunk.chunkIndex = index
  filled : promptTokens ≠ [] → chunks ≠ []
  first : ∀ chunk, chunks.head? = some chunk → chunk.startPos = 0
  next : ∀ index chunk later, chunks[index]? = some chunk → chunks[index + 1]? = some later →
    chunk.startPos ≤ later.startPos ∧ later.startPos ≤ chunk.endPos ∧ chunk.endPos < later.endPos
  last : ∀ index chunk, chunks[index]? = some chunk → (chunk.isLast = true ↔ index + 1 = chunks.length) ∧
    (index + 1 = chunks.length → chunk.endPos = promptTokens.length)

/-- The tokens behind the last start are more than the overlap, if there is more than one chunk. -/
def ChunkedPrefillConfig.NoTail (config : ChunkedPrefillConfig) (total : Nat) : Prop :=
  total ≤ config.stride ∨ config.shared ≤ (total - 1) % config.stride

instance (config : ChunkedPrefillConfig) (total : Nat) : Decidable (config.NoTail total) :=
  inferInstanceAs (Decidable (_ ∨ _))

/-- A slice of 32-bit tokens has at most this many. -/
def maxTokens : Nat := (2 ^ 63 - 1) / 4

variable {build : Build} {promptTokens : List UInt32} {config : ChunkedPrefillConfig} {chunks : List PrefillChunk}

theorem config_bounds (config : ChunkedPrefillConfig) :
    0 < config.stride ∧ config.stride + config.shared = config.size ∧ config.size < 2 ^ 64 := by
  have fits := config.chunkSize.toNat_lt
  rw [ChunkedPrefillConfig.stride, ChunkedPrefillConfig.shared, ChunkedPrefillConfig.size]
  omega

section Chunks

variable {size stride start index fuel : Nat}

theorem addUsize_fits {first second : Nat} (fits : first + second < 2 ^ 64) :
    addUsize build first second = some (first + second) := by
  rw [addUsize, if_neg (by omega), Nat.mod_eq_of_lt fits]

/-- A sum is exact, or it is less than its parts. -/
theorem addUsize_some {first second sum : Nat} (below : first < 2 ^ 64) (below' : second < 2 ^ 64)
    (added : addUsize build first second = some sum) : sum = first + second ∨ sum < first := by
  rw [addUsize] at added
  split at added
  case isTrue => cases added
  case isFalse =>
    cases added
    by_cases fits : first + second < 2 ^ 64
    · exact .inl (Nat.mod_eq_of_lt fits)
    · rw [Nat.mod_eq_sub_mod (Nat.le_of_not_lt fits), Nat.mod_eq_of_lt (by omega)]
      omega

/-- The chunk of a start. -/
def chunkAt (promptTokens : List UInt32) (size start index : Nat) : PrefillChunk :=
  let stop := min (start + size) promptTokens.length
  ⟨(promptTokens.drop start).take (stop - start), start, stop, index, false⟩

/-- The chunks of the starts that are a stride apart. -/
inductive Laid (promptTokens : List UInt32) (size stride : Nat) : Nat → Nat → List PrefillChunk → Prop
  | done {start index : Nat} (ended : promptTokens.length ≤ start) : Laid promptTokens size stride start index []
  | chunk {start index : Nat} {chunks : List PrefillChunk} (inside : start < promptTokens.length)
      (later : Laid promptTokens size stride (start + stride) (index + 1) chunks) :
      Laid promptTokens size stride start index (chunkAt promptTokens size start index :: chunks)

/-- A loop that ends has made the chunks of its starts. -/
theorem laid_of_chunkLoop (short : promptTokens.length ≤ maxTokens) (moves : 0 < stride) (below : stride < 2 ^ 64)
    (below' : size < 2 ^ 64) (place : start = 0 ∨ stride ≤ start)
    (ran : chunkLoop build promptTokens size stride fuel start index = some chunks) :
    Laid promptTokens size stride start index chunks := by
  rw [maxTokens] at short
  induction fuel generalizing start index chunks with
  | zero => cases ran
  | succ fuel ih =>
      rw [chunkLoop] at ran
      by_cases inside : start < promptTokens.length
      case neg =>
        rw [if_neg inside] at ran
        cases ran
        exact .done (Nat.le_of_not_lt inside)
      rw [if_pos inside, Nat.max_eq_left moves] at ran
      obtain ⟨sum, added, ran⟩ := Option.bind_eq_some_iff.mp ran
      dsimp only at ran
      split at ran
      case isTrue => cases ran
      case isFalse ordered =>
        obtain ⟨next, stepped, ran⟩ := Option.bind_eq_some_iff.mp ran
        obtain ⟨later, rest, same⟩ := Option.bind_eq_some_iff.mp ran
        cases same
        rw [addUsize_fits (by omega)] at stepped
        cases stepped
        rcases addUsize_some (by omega) below' added with rfl | wrapped
        · exact .chunk inside (ih (.inr (Nat.le_add_left _ _)) rest)
        · omega

/-- A loop whose sums fit ends. -/
theorem chunkLoop_ends (short : promptTokens.length ≤ maxTokens) (moves : 0 < stride) (below : stride < 2 ^ 64)
    (place : start = 0 ∨ stride ≤ start) (enough : promptTokens.length - start < fuel)
    (fits : ∀ other < promptTokens.length, other = 0 ∨ stride ≤ other → other + size < 2 ^ 64) :
    ∃ chunks, chunkLoop build promptTokens size stride fuel start index = some chunks := by
  rw [maxTokens] at short
  induction fuel generalizing start index with
  | zero => exact absurd enough (Nat.not_lt_zero _)
  | succ fuel ih =>
      rw [chunkLoop]
      by_cases inside : start < promptTokens.length
      case neg =>
        rw [if_neg inside]
        exact ⟨[], rfl⟩
      obtain ⟨later, rest⟩ := @ih (start + stride) (index + 1) (.inr (Nat.le_add_left _ _)) (by omega)
      have stop : ¬ min (start + size) promptTokens.length < start := by omega
      rw [if_pos inside, Nat.max_eq_left moves, addUsize_fits (fits start inside place), Option.bind_eq_bind,
        Option.bind_some]
      dsimp only
      rw [if_neg stop, addUsize_fits (by omega), Option.bind_eq_bind, Option.bind_some, rest]
      exact ⟨_, rfl⟩

theorem Laid.length (laid : Laid promptTokens size stride start index chunks) :
    promptTokens.length ≤ start + chunks.length * stride ∧
      (chunks ≠ [] → start + (chunks.length - 1) * stride < promptTokens.length) := by
  induction laid with
  | done ended => exact ⟨Nat.le_add_right_of_le ended, fun some_ => absurd rfl some_⟩
  | @chunk start index chunks inside later ih =>
      rw [length_cons, Nat.add_sub_cancel, Nat.succ_mul]
      refine ⟨by omega, fun _ => ?_⟩
      cases chunks with
      | nil => rwa [length_nil, Nat.zero_mul]
      | cons second chunks =>
          have last := ih.2 (cons_ne_nil _ _)
          rw [length_cons, Nat.add_sub_cancel] at last
          rw [length_cons, Nat.succ_mul]
          omega

variable {i : Nat} {chunk : PrefillChunk}

theorem Laid.getElem? (laid : Laid promptTokens size stride start index chunks) (found : chunks[i]? = some chunk) :
    chunk = chunkAt promptTokens size (start + i * stride) (index + i) := by
  induction laid generalizing i with
  | done ended => cases found
  | @chunk start index chunks inside later ih =>
      cases i with
      | zero =>
          cases found
          rw [Nat.zero_mul, Nat.add_zero, Nat.add_zero]
      | succ i =>
          rw [ih found, Nat.succ_mul, Nat.add_comm (i * stride), Nat.add_assoc, Nat.add_assoc, Nat.add_comm 1]

theorem length_markLast (chunks : List PrefillChunk) : (markLast chunks).length = chunks.length := by
  induction chunks with
  | nil => rfl
  | cons chunk chunks ih =>
      cases chunks with
      | nil => rfl
      | cons second chunks => exact congrArg Nat.succ ih

/-- The last chunk alone is changed. -/
theorem getElem?_markLast (chunks : List PrefillChunk) (i : Nat) :
    (markLast chunks)[i]? = (chunks[i]?).map fun chunk =>
      { chunk with isLast := if i + 1 = chunks.length then true else chunk.isLast } := by
  induction chunks generalizing i with
  | nil => rfl
  | cons chunk chunks ih =>
      cases chunks with
      | nil => cases i <;> rfl
      | cons second chunks =>
          cases i with
          | zero =>
              rw [markLast, getElem?_cons_zero, getElem?_cons_zero, Option.map_some, if_neg]
              · simp
              · exact cons_ne_nil _ _
          | succ i =>
              rw [markLast, getElem?_cons_succ, getElem?_cons_succ, ih]
              · simp only [length_cons, Nat.add_right_cancel_iff]
              · exact cons_ne_nil _ _

/-- A chunk of the prompt. -/
theorem getElem?_created (laid : Laid promptTokens size stride 0 0 chunks) (found : (markLast chunks)[i]? = some chunk) :
    chunk = { chunkAt promptTokens size (i * stride) i with isLast := decide (i + 1 = chunks.length) } := by
  rw [getElem?_markLast] at found
  obtain ⟨old, here, rfl⟩ := Option.map_eq_some_iff.mp found
  rw [laid.getElem? here, Nat.zero_add, Nat.zero_add]
  by_cases last : i + 1 = chunks.length
  · rw [if_pos last, decide_eq_true last]
  · rw [if_neg last, decide_eq_false last]
    rfl

/-- Laid chunks cover the prompt exactly if the last one is longer than the overlap. -/
theorem covers_iff (laid : Laid promptTokens size stride 0 0 chunks) (filled : promptTokens ≠ []) (moves : 0 < stride)
    {shared : Nat} (split : stride + shared = size) : Covers promptTokens (markLast chunks) ↔
      promptTokens.length ≤ stride ∨ shared ≤ (promptTokens.length - 1) % stride := by
  have long := length_pos_iff.mpr filled
  obtain ⟨most, least⟩ := laid.length
  rw [Nat.zero_add] at most least
  have some_ : chunks ≠ [] := by
    rintro rfl
    rw [length_nil, Nat.zero_mul] at most
    omega
  have last := least some_
  obtain ⟨count, counted⟩ := Nat.exists_eq_succ_of_ne_zero (Nat.ne_of_gt (length_pos_iff.mpr some_))
  rw [counted, Nat.succ_sub_one] at last
  rw [counted, Nat.succ_mul] at most
  have quotient : promptTokens.length - 1 = count * stride + (promptTokens.length - 1) % stride := by
    have divided : (promptTokens.length - 1) / stride = count := by
      rw [Nat.div_eq_iff moves]
      omega
    have whole := Nat.div_add_mod (promptTokens.length - 1) stride
    rw [divided, Nat.mul_comm] at whole
    exact whole.symm
  have reads {i : Nat} (inside : i < count + 1) : ∃ chunk, (markLast chunks)[i]? = some chunk :=
    ⟨_, getElem?_eq_getElem (by rw [length_markLast, counted]; exact inside)⟩
  constructor
  · intro covers
    by_cases one : count = 0
    · rw [one, Nat.zero_mul, Nat.zero_add] at most
      exact .inl most
    · right
      obtain ⟨before, rfl⟩ := Nat.exists_eq_succ_of_ne_zero one
      obtain ⟨chunk, here⟩ := @reads before (by omega)
      obtain ⟨later, there⟩ := @reads (before + 1) (by omega)
      have grows := (covers.next before chunk later here there).2.2
      rw [getElem?_created laid here, getElem?_created laid there] at grows
      simp only [chunkAt] at grows
      rw [Nat.succ_mul] at quotient last
      omega
  · intro condition
    have rest : ∀ i < count, i * stride + stride ≤ count * stride := fun i before =>
      Nat.succ_mul i stride ▸ Nat.mul_le_mul_right stride before
    refine ⟨fun chunk member => ?_, fun index chunk found => ?_, fun _ none => ?_, fun chunk found => ?_,
      fun index chunk later found found' => ?_, fun index chunk found => ?_⟩
    · obtain ⟨index, inside, same⟩ := getElem_of_mem member
      have found := List.getElem?_eq_some_iff.mpr ⟨inside, same⟩
      rw [length_markLast, counted] at inside
      rw [getElem?_created laid found]
      have within := Nat.mul_le_mul_right stride (Nat.le_of_lt_succ inside)
      have reached : index * stride ≤ promptTokens.length := by omega
      exact ⟨Nat.le_min.mpr ⟨Nat.le_add_right _ _, reached⟩, Nat.min_le_right _ _, rfl⟩
    · rw [getElem?_created laid found]
      rfl
    · have none' := congrArg List.length none
      rw [length_markLast, counted] at none'
      cases none'
    · rw [head?_eq_getElem?] at found
      rw [getElem?_created laid found]
      exact Nat.zero_mul _
    · have inside := (List.getElem?_eq_some_iff.mp found').1
      rw [length_markLast, counted] at inside
      have before := rest index (by omega)
      rw [getElem?_created laid found, getElem?_created laid found']
      simp only [chunkAt]
      rw [Nat.succ_mul]
      rcases condition with one | longer
      · have none := Nat.mul_le_mul_right stride (show 1 ≤ count by omega)
        omega
      · omega
    · rw [getElem?_created laid found, length_markLast]
      refine ⟨decide_eq_true_iff, fun final => ?_⟩
      simp only [chunkAt]
      obtain rfl : index = count := by omega
      omega

end Chunks

/-- The chunks of a prompt cover it exactly if the last one is longer than the overlap. -/
theorem created_iff (short : promptTokens.length ≤ maxTokens) :
    (∃ chunks, createPrefillChunks build promptTokens config = some chunks ∧ Covers promptTokens chunks) ↔
      config.NoTail promptTokens.length := by
  obtain ⟨moves, split, below⟩ := config_bounds config
  rw [createPrefillChunks]
  by_cases empty : promptTokens = []
  · subst empty
    rw [if_pos rfl]
    refine ⟨fun _ => .inl (Nat.zero_le _), fun _ => ⟨[], rfl, nofun, nofun, fun wrong => absurd rfl wrong, nofun, nofun,
      nofun⟩⟩
  rw [if_neg empty]
  constructor
  · rintro ⟨_, created, covers⟩
    obtain ⟨chunks, ran, rfl⟩ := Option.map_eq_some_iff.mp created
    exact (covers_iff (laid_of_chunkLoop short moves (by omega) below (.inl rfl) ran) empty moves split).mp covers
  · intro condition
    obtain ⟨chunks, ran⟩ : ∃ chunks, chunkLoop build promptTokens config.size config.stride (promptTokens.length + 1)
        0 0 = some chunks := by
      refine chunkLoop_ends short moves (by omega) (.inl rfl) (by omega) fun other inside place => ?_
      rw [maxTokens] at short
      rcases condition with one | longer
      · omega
      · have rest := Nat.mod_lt (promptTokens.length - 1) moves
        omega
    rw [ran]
    exact ⟨_, rfl, (covers_iff (laid_of_chunkLoop short moves (by omega) below (.inl rfl) ran) empty moves
      split).mpr condition⟩

section Schedule

def prefills (actions : List PrefillAction) : List PrefillChunk :=
  actions.filterMap fun
    | .prefill chunk => some chunk
    | _ => none

namespace PrefillScheduler

variable {scheduler : PrefillScheduler}

/-- The cursor stands within the chunks, and at their end once the prefill is complete. -/
structure Valid (scheduler : PrefillScheduler) : Prop where
  within : scheduler.currentChunk ≤ scheduler.chunks.length
  complete : scheduler.prefillComplete = true → scheduler.chunks.length ≤ scheduler.currentChunk

/-- An action starts the decoding behind all chunks, yields behind a prefill, or hands out the next chunk. -/
theorem nextAction_cases (valid : scheduler.Valid) :
    (scheduler.currentChunk = scheduler.chunks.length ∧ scheduler.nextAction.1 = .startDecode ∧
      scheduler.nextAction.2 = { scheduler with prefillComplete := true }) ∨
    (scheduler.lastWasPrefill = true ∧ scheduler.nextAction = (.yieldToDecode, { scheduler with lastWasPrefill := false })) ∨
    ∃ chunk, scheduler.chunks[scheduler.currentChunk]? = some chunk ∧ scheduler.nextAction = scheduler.prefillNext chunk := by
  rw [nextAction]
  by_cases complete : scheduler.prefillComplete = true
  · rw [if_pos complete]
    refine .inl ⟨Nat.le_antisymm valid.within (valid.complete complete), rfl, ?_⟩
    rw [← complete]
  rw [if_neg complete]
  cases found : scheduler.chunks[scheduler.currentChunk]? with
  | none => exact .inl ⟨Nat.le_antisymm valid.within (List.getElem?_eq_none_iff.mp found), rfl, rfl⟩
  | some chunk =>
      right
      dsimp only
      cases scheduler.priority with
      | prefillFirst => exact .inr ⟨chunk, rfl, rfl⟩
      | interleaved =>
          dsimp only
          split
          case isTrue yields => exact .inl ⟨yields.1, rfl⟩
          case isFalse => exact .inr ⟨chunk, rfl, rfl⟩
      | decodePriority =>
          dsimp only
          split
          case isTrue yields => exact .inl ⟨yields, rfl⟩
          case isFalse => exact .inr ⟨chunk, rfl, rfl⟩

theorem valid_prefillNext {chunk : PrefillChunk} (valid : scheduler.Valid)
    (found : scheduler.chunks[scheduler.currentChunk]? = some chunk) : (scheduler.prefillNext chunk).2.Valid := by
  have inside := (List.getElem?_eq_some_iff.mp found).1
  refine ⟨inside, ?_⟩
  rw [prefillNext]
  dsimp only
  split
  case isTrue reached => exact fun _ => reached
  case isFalse => exact fun complete => Nat.le_succ_of_le (valid.complete complete)

/-- The calls hand out the chunks behind the cursor in order, a chunk in every second call at least. -/
theorem prefills_actions (calls : Nat) (valid : scheduler.Valid) :
    ∃ count, prefills (scheduler.actions calls) = (scheduler.chunks.drop scheduler.currentChunk).take count ∧
      (calls ≤ 2 * count + (if scheduler.lastWasPrefill = true then 1 else 0) ∨
        scheduler.chunks.length ≤ scheduler.currentChunk + count) := by
  induction calls generalizing scheduler with
  | zero => exact ⟨0, rfl, .inl (Nat.zero_le _)⟩
  | succ calls ih =>
      rw [actions]
      rcases nextAction_cases valid with ⟨ended, action, next⟩ | ⟨last, both⟩ | ⟨chunk, found, both⟩
      · obtain ⟨count, same, _⟩ := @ih { scheduler with prefillComplete := true }
          ⟨valid.within, fun _ => Nat.le_of_eq ended.symm⟩
        rw [action, next]
        exact ⟨count, same, .inr (by omega)⟩
      · obtain ⟨count, same, many⟩ := @ih { scheduler with lastWasPrefill := false }
          ⟨valid.within, valid.complete⟩
        rw [both]
        refine ⟨count, same, ?_⟩
        rw [if_neg Bool.false_ne_true] at many
        rw [if_pos last]
        exact many.imp_left Nat.succ_le_succ
      · obtain ⟨count, same, many⟩ := ih (valid_prefillNext valid found)
        obtain ⟨inside, here⟩ := List.getElem?_eq_some_iff.mp found
        rw [both]
        refine ⟨count + 1, ?_, ?_⟩
        · rw [drop_eq_getElem_cons inside, here, take_succ_cons]
          exact congrArg (chunk :: ·) same
        · rw [show (scheduler.prefillNext chunk).2.lastWasPrefill = true from rfl, if_pos rfl] at many
          rcases many with few | all
          · exact .inl (by omega)
          · right
            change scheduler.chunks.length ≤ scheduler.currentChunk + 1 + count at all
            omega

/-- A yield follows a prefill. -/
theorem no_yields (calls : Nat) (valid : scheduler.Valid) :
    (scheduler.actions calls).IsChain (fun action later => ¬ (action = .yieldToDecode ∧ later = .yieldToDecode)) ∧
      (scheduler.lastWasPrefill = false → (scheduler.actions calls).head? ≠ some .yieldToDecode) := by
  induction calls generalizing scheduler with
  | zero => exact ⟨.nil, fun _ => nofun⟩
  | succ calls ih =>
      rw [actions]
      rcases nextAction_cases valid with ⟨ended, action, next⟩ | ⟨last, both⟩ | ⟨chunk, found, both⟩
      · rw [action, next]
        have rest := @ih { scheduler with prefillComplete := true }
          ⟨valid.within, fun _ => Nat.le_of_eq ended.symm⟩
        exact ⟨isChain_cons.mpr ⟨fun _ _ => nofun, rest.1⟩, fun _ => nofun⟩
      · rw [both]
        have rest := @ih { scheduler with lastWasPrefill := false } ⟨valid.within, valid.complete⟩
        refine ⟨isChain_cons.mpr ⟨?_, rest.1⟩, fun other => ?_⟩
        · rintro later head ⟨_, rfl⟩
          exact rest.2 rfl head
        · rw [other] at last
          cases last
      · rw [both]
        have rest := ih (valid_prefillNext valid found)
        exact ⟨isChain_cons.mpr ⟨fun _ _ => nofun, rest.1⟩, fun _ => nofun⟩

/-- The decoding starts behind all chunks. -/
theorem decode_last (calls : Nat) (valid : scheduler.Valid) {i : Nat}
    (found : (scheduler.actions calls)[i]? = some .startDecode) :
    prefills ((scheduler.actions calls).take i) = scheduler.chunks.drop scheduler.currentChunk := by
  induction calls generalizing scheduler i with
  | zero => cases found
  | succ calls ih =>
      rw [actions] at found ⊢
      rcases nextAction_cases valid with ⟨ended, action, next⟩ | ⟨last, both⟩ | ⟨chunk, here, both⟩
      · rw [action, next] at found ⊢
        have empty : scheduler.chunks.drop scheduler.currentChunk = [] := drop_eq_nil_iff.mpr (by omega)
        cases i with
        | zero => exact empty.symm
        | succ i =>
            exact @ih { scheduler with prefillComplete := true } ⟨valid.within, fun _ => Nat.le_of_eq ended.symm⟩ i found
      · rw [both] at found ⊢
        cases i with
        | zero => cases found
        | succ i => exact @ih { scheduler with lastWasPrefill := false } ⟨valid.within, valid.complete⟩ i found
      · rw [both] at found ⊢
        obtain ⟨inside, same⟩ := List.getElem?_eq_some_iff.mp here
        cases i with
        | zero => cases found
        | succ i =>
            rw [drop_eq_getElem_cons inside, same]
            exact congrArg (chunk :: ·) (ih (valid_prefillNext valid here) found)

/-- The schedule hands out every chunk once and in order, never yields twice in a row, and starts the
decoding behind all chunks. -/
structure Schedules (scheduler : PrefillScheduler) : Prop where
  inOrder : ∀ calls, ∃ count, prefills (scheduler.actions calls) = scheduler.chunks.take count
  every : ∀ calls, 2 * scheduler.chunks.length ≤ calls → prefills (scheduler.actions calls) = scheduler.chunks
  yields : ∀ calls, (scheduler.actions calls).IsChain fun action later =>
    ¬ (action = .yieldToDecode ∧ later = .yieldToDecode)
  decodes : ∀ calls (i : Nat), (scheduler.actions calls)[i]? = some .startDecode →
    prefills ((scheduler.actions calls).take i) = scheduler.chunks

theorem schedules_new (priority : PrefillPriority) (chunks : List PrefillChunk) :
    Schedules ⟨priority, chunks, 0, false, false⟩ := by
  have valid : Valid ⟨priority, chunks, 0, false, false⟩ := ⟨Nat.zero_le _, nofun⟩
  refine ⟨fun calls => ?_, fun calls enough => ?_, fun calls => (no_yields calls valid).1,
    fun calls i found => decode_last calls valid found⟩
  · obtain ⟨count, same, _⟩ := prefills_actions calls valid
    exact ⟨count, same⟩
  · obtain ⟨count, same, many⟩ := prefills_actions calls valid
    rw [same, drop_zero]
    refine take_of_length_le ?_
    rcases many with few | all
    · rw [if_neg Bool.false_ne_true] at few
      exact Nat.le_of_mul_le_mul_left (Nat.le_trans enough few) Nat.zero_lt_two
    · rwa [Nat.zero_add] at all

end PrefillScheduler

end Schedule

/-- A prompt is chunked and scheduled as it should be exactly if no chunk behind the first lies within
the overlap. -/
theorem prefill_exact_iff (build : Build) (promptTokens : List UInt32) (short : promptTokens.length ≤ maxTokens)
    (config : ChunkedPrefillConfig) : (∃ scheduler, PrefillScheduler.new build promptTokens config = some scheduler ∧
      Covers promptTokens scheduler.chunks ∧ scheduler.Schedules) ↔ config.NoTail promptTokens.length := by
  rw [← created_iff short]
  constructor
  · rintro ⟨scheduler, made, covers, _⟩
    obtain ⟨chunks, created, rfl⟩ := Option.map_eq_some_iff.mp made
    exact ⟨chunks, created, covers⟩
  · rintro ⟨chunks, created, covers⟩
    exact ⟨_, congrArg (Option.map _) created, covers, PrefillScheduler.schedules_new config.priority chunks⟩

theorem prefill_exact_four : (∃ scheduler, PrefillScheduler.new .debug [1, 2, 3, 4] ⟨2, 0, .interleaved⟩ = some scheduler ∧
    Covers [1, 2, 3, 4] scheduler.chunks ∧ scheduler.Schedules) ↔
      ChunkedPrefillConfig.NoTail ⟨2, 0, .interleaved⟩ 4 :=
  prefill_exact_iff .debug [1, 2, 3, 4] (by decide) ⟨2, 0, .interleaved⟩

/-- Chunks of two tokens that share one end with a chunk that adds nothing. -/
theorem prefill_gap : ¬ ∃ scheduler, PrefillScheduler.new .debug [1, 2] ⟨2, 1, .prefillFirst⟩ = some scheduler ∧
    Covers [1, 2] scheduler.chunks ∧ scheduler.Schedules := by
  rintro ⟨scheduler, made, covers, _⟩
  have created : PrefillScheduler.new .debug [1, 2] ⟨2, 1, .prefillFirst⟩ =
      some ⟨.prefillFirst, [⟨[1, 2], 0, 2, 0, false⟩, ⟨[2], 1, 2, 1, true⟩], 0, false, false⟩ := by rfl
  obtain rfl := Option.some.inj (created.symm.trans made)
  exact absurd (covers.next 0 _ _ rfl rfl).2.2 (Nat.lt_irrefl 2)

end Pictor.ChunkedPrefill
