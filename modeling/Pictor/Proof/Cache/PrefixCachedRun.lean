import Pictor.Proof.Cache.CoherentForward
import Pictor.Proof.Cache.PrefixServed

namespace Pictor.KvStore.PrefixCachedEngine
open Footprint KvCache CpuModel Outcome PrefixCache Tiling List

variable {Element Scalar : Type} [Zero Element] {model : CpuModel Element Scalar} {prompts : List (List UInt32)}

/-- Each layer of a block is a copy of the positions of a cache. -/
def CopyOf (model : CpuModel Element Scalar) (source : KvCache Element) (blockStart : Nat)
    (keys values : List (List Element)) : Prop :=
  ∀ layer : Fin model.numLayers, ∃ layerKeys layerValues,
    keys[(layer : Nat)]? = some layerKeys ∧ values[(layer : Nat)]? = some layerValues ∧
      IsBlock source.keys model.headDim model.maxSeqLen layer model.numKvHeads blockStart blockLength layerKeys ∧
      IsBlock source.values model.headDim model.maxSeqLen layer model.numKvHeads blockStart blockLength layerValues

/-- An insertion stores a full block of a prompt, copied from a cache that is coherent with the prompt. -/
structure Correct (model : CpuModel Element Scalar) (prompts : List (List UInt32)) (insertion : Insertion Element) :
    Prop where
  listed : insertion.tokenIds ∈ prompts
  aligned : blockLength ∣ insertion.blockStart
  complete : insertion.blockStart + blockLength ≤ insertion.tokenIds.length
  copied : ∃ source, model.Coherent source insertion.tokenIds ∧
    CopyOf model source insertion.blockStart insertion.keys insertion.values

/-- Every block of the cache was stored by a correct insertion. -/
def CacheReady (model : CpuModel Element Scalar) (prompts : List (List UInt32)) (cached : PrefixCache Element) : Prop :=
  ∃ source log, Sourced source cached ∧ Logged source log ∧ cached.blockSize = blockLength ∧
    ∀ insertion ∈ log, Correct model prompts insertion

/-- Different full blocks of the prompts have different edge keys. -/
def NoCollision (prompts : List (List UInt32)) : Prop :=
  ∀ first ∈ prompts, ∀ second ∈ prompts, ∀ i j, (i + 1) * blockLength ≤ first.length →
    (j + 1) * blockLength ≤ second.length →
    blockEdgeKey (blockTokens blockLength first i) = blockEdgeKey (blockTokens blockLength second j) →
    blockTokens blockLength first i = blockTokens blockLength second j

theorem new_ready (maxCacheBlocks : Nat) :
    CacheReady model prompts (PrefixCache.new maxCacheBlocks blockLength : PrefixCache Element) := by
  refine ⟨_, [], new_sourced maxCacheBlocks blockLength, ?_, rfl, ?_⟩
  · intro idx insertion recorded
    cases recorded
  · intro insertion member
    cases member

variable {cached cached' : PrefixCache Element}

theorem CacheReady.keeps (ready : CacheReady model prompts cached) (kept : Keeps cached cached') :
    CacheReady model prompts cached' := by
  obtain ⟨source, log, sourced, logged, size, correct⟩ := ready
  exact ⟨source, log, sourced.keeps kept, logged, kept.size.trans size, correct⟩

theorem CacheReady.insert (ready : CacheReady model prompts cached) {insertion : Insertion Element}
    (correct : Correct model prompts insertion) : CacheReady model prompts (cached.insert insertion).2 := by
  obtain ⟨source, log, sourced, logged, size, corrects⟩ := ready
  obtain ⟨source', sourced', logged', size'⟩ := step_logged sourced logged (.insert insertion)
  refine ⟨source', log ++ [insertion], sourced', logged', size'.trans size, fun other member => ?_⟩
  rcases mem_append.mp member with earlier | last
  · exact corrects other earlier
  · rw [mem_singleton.mp last]
    exact correct

theorem CacheReady.inserts {insertions : List (Insertion Element)}
    (correct : ∀ insertion ∈ insertions, Correct model prompts insertion) (ready : CacheReady model prompts cached) :
    CacheReady model prompts (insertions.foldl (fun cached insertion => (cached.insert insertion).2) cached) := by
  induction insertions generalizing cached with
  | nil => exact ready
  | cons insertion rest ih =>
      have next := ready.insert (correct insertion mem_cons_self)
      exact ih (fun other member => correct other (mem_cons_of_mem _ member)) next

/-- Without collisions the correct insertions are separated. -/
theorem separated_of_correct {log : List (Insertion Element)} (apart : NoCollision prompts)
    (correct : ∀ insertion ∈ log, Correct model prompts insertion) : Separated blockLength log := by
  intro upper memberUpper lower memberLower above keys
  have upperFits := (correct upper memberUpper).complete
  have lowerFits := (correct lower memberLower).complete
  have first : (upper.blockStart / blockLength + 1) * blockLength ≤ upper.tokenIds.length := by
    rw [Nat.succ_mul, Nat.div_mul_cancel (correct upper memberUpper).aligned]
    exact upperFits
  have second : (upper.blockStart / blockLength + 1) * blockLength ≤ lower.tokenIds.length := by
    have below := Nat.mul_le_mul_right blockLength (Nat.succ_le_of_lt above)
    rw [Nat.div_mul_cancel (correct lower memberLower).aligned] at below
    exact below.trans (Nat.le_of_add_right_le lowerFits)
  obtain ⟨_, each⟩ := (prefixKeys_eq_iff _ _ _ _ _).mp keys
  exact apart upper.tokenIds (correct upper memberUpper).listed lower.tokenIds (correct lower memberLower).listed
    _ _ first second (each _ (Nat.lt_succ_self _))

/-- What a prepared session knows about one of its blocks. -/
structure Restorable (model : CpuModel Element Scalar) (prompt : List UInt32) (number : Nat)
    (block : CacheBlock Element) (tokens : List UInt32) (source : KvCache Element) : Prop where
  coherent : model.Coherent source tokens
  copied : CopyOf model source (number * blockLength) block.keys block.values
  within : (number + 1) * blockLength ≤ tokens.length
  inside : (number + 1) * blockLength ≤ prompt.length
  agrees : tokens.take ((number + 1) * blockLength) = prompt.take ((number + 1) * blockLength)

/-- The blocks of a prepared session are copies of coherent caches that agree with the prompt. -/
theorem CacheReady.prepare {prefill : PrefixAwarePrefill Element} (ready : CacheReady model prompts prefill.cache)
    (apart : NoCollision prompts) (prompt : List UInt32) : CacheReady model prompts (prefill.prepare prompt).2.cache ∧
      (prefill.prepare prompt).1.2 = (prefill.prepare prompt).1.1.blockIndices.length * blockLength ∧
      (prefill.prepare prompt).1.2 ≤ prompt.length ∧
      ∀ number idx, (prefill.prepare prompt).1.1.blockIndices[number]? = some idx →
        ∃ block tokens source, (prefill.prepare prompt).2.cache.blocks[idx]? = some block ∧
          Restorable model prompt number block tokens source := by
  have kept : Keeps prefill.cache (prefill.prepare prompt).2.cache := lookup_keeps prefill.cache prompt
  have indices := PrefixAwarePrefill.prepare_blockIndices prefill prompt
  have matched : (prefill.prepare prompt).1.2 = (prefill.cache.lookupIndices prompt).1.1 := rfl
  have collected := (lookupIndices_spec prefill.cache prompt).1
  have counted := lookupLoop_matched prompt (prompt.length / prefill.cache.blockSize) 0 0 (0, []) prefill.cache
    (Nat.zero_mul _).symm
  change (prefill.cache.lookupIndices prompt).1.1 =
    (prefill.cache.lookupIndices prompt).1.2.length * prefill.cache.blockSize at counted
  have ready' := ready.keeps kept
  obtain ⟨log, source, sourced, logged, size, correct⟩ := ready
  rw [collected, size] at counted
  rw [size] at indices
  refine ⟨ready', ?_, ?_, fun number idx listed => ?_⟩
  · rw [matched, counted, indices]
  · rw [matched, counted]
    have short : (prefill.cache.hitRun prompt (prompt.length / blockLength) 0).length ≤ prompt.length / blockLength := by
      by_contra long
      have present := getElem?_eq_getElem (Nat.lt_of_not_le long)
      exact Nat.lt_irrefl _ ((getElem?_hitRun _ _ _ _).mp present).1
    exact (Nat.mul_le_mul_right _ short).trans (Nat.div_mul_le_self _ _)
  · rw [indices, ← size] at listed
    have separated : Separated prefill.cache.blockSize source := by
      rw [size]
      exact separated_of_correct apart correct
    obtain ⟨insertion, member, holds, depth, length, full, agrees⟩ :=
      hitRun_source sourced logged (fun insertion member => by rw [size]; exact (correct insertion member).aligned)
        separated listed
    rw [size] at depth length full agrees
    have fine := correct insertion member
    obtain ⟨copy, coherent, copied⟩ := fine.copied
    have found := ((getElem?_hitRun _ _ _ _).mp listed).2.2
    have below := sourced.occupied_inside (sourced.hit_occupied found)
    rw [← kept.length] at below
    obtain ⟨keys, values, _⟩ := kept.contents idx
    have block : (prefill.prepare prompt).2.cache.blocks[idx]? =
        some ((prefill.prepare prompt).2.cache.block idx) := by
      rw [PrefixCache.block, getD_eq_getElem?_getD, getElem?_eq_getElem below, Option.getD_some]
    refine ⟨_, insertion.tokenIds, copy, block, coherent, ?_, length, full, agrees⟩
    rw [keys, values, holds.keys, holds.values, ← depth, Nat.div_mul_cancel fine.aligned]
    exact copied

/-- A restored block writes its positions. -/
theorem writes_restoreBlock {source : KvCache Element} {block : CacheBlock Element} {blockStart : Nat}
    (shaped : Shaped model.numLayers model.numKvHeads model.headDim model.maxSeqLen source)
    (copied : CopyOf model source blockStart block.keys block.values) : WritesRows model.headDim
      {cell : Cell model.numLayers model.numKvHeads model.maxSeqLen |
        blockStart ≤ cell.2.pos ∧ cell.2.pos < blockStart + blockLength}
      (cellRow model.headDim source) (restoreBlock model blockStart blockLength block) := by
  let snapshotAt layer : Except Panic (List Element × List Element) := do
    let keys ← getAt .outOfRange layer block.keys
    let values ← getAt .outOfRange layer block.values
    return (keys, values)
  have each : ∀ layer < model.numLayers, ∃ snapshot, snapshotAt layer = .ok snapshot ∧
      block.keys[layer]? = some snapshot.1 ∧ block.values[layer]? = some snapshot.2 := by
    intro layer below
    obtain ⟨keys, values, presentKeys, presentValues, _⟩ := copied ⟨layer, below⟩
    change block.keys[layer]? = some keys at presentKeys
    change block.values[layer]? = some values at presentValues
    refine ⟨(keys, values), ?_, presentKeys, presentValues⟩
    simp only [snapshotAt, getAt, presentKeys, presentValues, ok_bind]
    rfl
  obtain ⟨snapshots, ran, counted, found⟩ := mapM_range each
  have steps : ∀ snapshot ∈ snapshots.zipIdx, WritesRows model.headDim
      {cell : Cell model.numLayers model.numKvHeads model.maxSeqLen | (cell.2.layer : Nat) = snapshot.2 ∧
        blockStart ≤ cell.2.pos ∧ cell.2.pos < blockStart + blockLength}
      (cellRow model.headDim source)
      fun cache => cache.injectBlock snapshot.2 blockStart blockLength snapshot.1.1 snapshot.1.2 := by
    intro snapshot member
    have present := mem_zipIdx_iff_getElem?.mp member
    have below : snapshot.2 < model.numLayers := by
      rw [← counted]
      exact (List.getElem?_eq_some_iff.mp present).1
    obtain ⟨keys, values, presentKeys, presentValues, isKeys, isValues⟩ := copied ⟨snapshot.2, below⟩
    obtain ⟨other, present', otherKeys, otherValues⟩ := found snapshot.2 below
    rw [present] at present'
    cases present'
    rw [otherKeys] at presentKeys
    rw [otherValues] at presentValues
    cases presentKeys
    cases presentValues
    refine (writes_injectBlock shaped isKeys isValues).congr ?_
    ext cell
    simp only [Set.mem_ofPred_eq, Fin.ext_iff]
  have injected : restoreBlock model blockStart blockLength block = fun cache => snapshots.zipIdx.foldlM
      (fun cache snapshot => cache.injectBlock snapshot.2 blockStart blockLength snapshot.1.1 snapshot.1.2) cache := by
    funext cache
    change (List.range model.numLayers).mapM snapshotAt >>= _ = _
    rw [ran, ok_bind]
  rw [injected]
  refine (Writes.foldlM steps).congr ?_
  ext cell
  constructor
  · rintro ⟨_, _, _, range⟩
    exact range
  · intro range
    obtain ⟨snapshot, present, _⟩ := found cell.2.layer cell.2.layer.isLt
    exact ⟨(snapshot, cell.2.layer), mem_zipIdx_iff_getElem?.mpr present, rfl, range⟩

end Pictor.KvStore.PrefixCachedEngine

namespace Pictor.KvStore.PrefixCachedEngine
open Footprint KvCache CpuModel InferenceEngine Outcome PrefixCache PrefixAwarePrefill Tiling List

variable {Element Scalar Params Sampler : Type} {model : CpuModel Element Scalar} {prompts : List (List UInt32)}
  {prompt : List UInt32} {cache : KvCache Element} {engine : PrefixCachedEngine Element}

section Start

variable [Zero Element]

theorem Coherent.setSeqLen {tokens : List UInt32} (coherent : model.Coherent cache tokens) (n : Nat) :
    model.Coherent (cache.setSeqLen n) tokens :=
  ⟨{ coherent.shaped with }, coherent.fits, coherent.embedded, coherent.same⟩

/-- The restored cache is coherent with the tokens of the blocks. -/
theorem restore_coherent {cached : PrefixCache Element} {session : CacheSession} (size : cached.blockSize = blockLength)
    (known : ∀ number idx, session.blockIndices[number]? = some idx →
      ∃ block tokens source, cached.blocks[idx]? = some block ∧ Restorable model prompt number block tokens source)
    (shaped : Shaped model.numLayers model.numKvHeads model.headDim model.maxSeqLen cache) :
    ∃ after, restore model cached session cache = .ok after ∧
      model.Coherent after (prompt.take (session.blockIndices.length * blockLength)) := by
  have writes : WritesRows model.headDim {cell | ∃ entry ∈ session.blockIndices.zipIdx,
      cell ∈ {cell : Cell model.numLayers model.numKvHeads model.maxSeqLen |
        entry.2 * blockLength ≤ cell.2.pos ∧ cell.2.pos < entry.2 * blockLength + blockLength}}
      (entryRow (model.entries prompt)) (restore model cached session) := by
    refine Writes.foldlM fun entry member => ?_
    obtain ⟨block, tokens, source, present, fine⟩ := known _ _ (mem_zipIdx_iff_getElem?.mp member)
    simp only [present, size]
    refine (writes_restoreBlock fine.coherent.shaped fine.copied).retarget fun cell inside => ?_
    have below : cell.2.pos < (entry.2 + 1) * blockLength := by
      rw [Nat.succ_mul]
      exact inside.2
    rw [fine.coherent.row (below.trans_le fine.within)]
    exact entryRow_agree fine.within fine.inside fine.agrees below
  obtain ⟨after, ran, written⟩ := writes cache shaped
  -- The last block bounds the tokens, and its source accepted them.
  have bounds : session.blockIndices.length * blockLength ≤ prompt.length ∧
      session.blockIndices.length * blockLength ≤ model.maxSeqLen ∧
      ∀ token ∈ prompt.take (session.blockIndices.length * blockLength), model.embeds token = true := by
    cases count : session.blockIndices.length with
    | zero =>
        rw [Nat.zero_mul]
        exact ⟨Nat.zero_le _, Nat.zero_le _, by rintro token ⟨⟩⟩
    | succ last =>
        have below : last < session.blockIndices.length := by omega
        obtain ⟨block, tokens, source, _, fine⟩ := known _ _ (getElem?_eq_getElem below)
        refine ⟨fine.inside, fine.within.trans fine.coherent.fits, fun token member => ?_⟩
        rw [← fine.agrees] at member
        exact fine.coherent.embedded token (mem_of_mem_take member)
  obtain ⟨short, fits, embedded⟩ := bounds
  have counted : (prompt.take (session.blockIndices.length * blockLength)).length =
      session.blockIndices.length * blockLength := by
    rw [length_take, Nat.min_eq_left short]
  refine ⟨after, ran, coherent_of_rows written.valid (by rwa [counted]) embedded fun cell below => ?_⟩
  rw [counted] at below
  have number : (cell.2.pos : Nat) / blockLength < session.blockIndices.length :=
    Nat.div_lt_of_lt_mul (by rwa [Nat.mul_comm])
  have start := Nat.div_mul_le_self cell.2.pos blockLength
  have stop := Nat.lt_div_mul_add (a := cell.2.pos) (b := blockLength) (by decide)
  rw [written.inside cell ⟨(session.blockIndices[(cell.2.pos : Nat) / blockLength], (cell.2.pos : Nat) / blockLength),
    mem_zipIdx_iff_getElem?.mpr (getElem?_eq_getElem number), start, stop⟩]
  refine entryRow_agree short (Nat.le_of_eq counted.symm) ?_ below
  rw [take_take, Nat.min_self]

/-- The request after its prefill has the cold logits, and a successful prefill is coherent with the prompt. -/
structure StartedWell (model : CpuModel Element Scalar) (prompts : List (List UInt32)) (prompt : List UInt32)
    (started : Started Element Scalar) : Prop where
  shaped : Shaped model.numLayers model.numKvHeads model.headDim model.maxSeqLen started.engine.kvCache
  ready : CacheReady model prompts started.engine.prefixCache.cache
  logits : started.lastLogits = model.steps [] [] prompt
  coherent : ∀ logits, started.lastLogits = .ok logits → model.Coherent started.engine.kvCache prompt
  aligned : blockLength ∣ started.uncachedStart

/-- The prefill of the rest of the prompt, or of its last token. -/
theorem resume_coherent {start : Nat} (inside : start ≤ prompt.length) (nonempty : prompt ≠ [])
    (coherent : model.Coherent cache (prompt.take start)) :
    ∃ after, prefillRest model prompt start cache = .ok (after, model.steps [] [] prompt) ∧
      Shaped model.numLayers model.numKvHeads model.headDim model.maxSeqLen after ∧
      ∀ logits, model.steps [] [] prompt = .ok logits → model.Coherent after prompt := by
  have counted : (prompt.take start).length = start := by rw [length_take, Nat.min_eq_left inside]
  by_cases partly : start < prompt.length
  · rw [prefillRest, if_pos partly]
    have more : prompt.drop start ≠ [] := by
      rw [Ne, drop_eq_nil_iff]
      omega
    have whole := steps_resume coherent.fits coherent.embedded more []
    have resumed := coherent.forwardPrefill more
    rw [take_append_drop] at whole resumed
    rw [counted, ← whole] at resumed
    exact resumed
  · rw [prefillRest, if_neg partly]
    have all : prompt.take start = prompt := take_of_length_le (by omega)
    rw [all] at coherent
    obtain ⟨init, last, rfl⟩ := eq_nil_or_concat' prompt |>.resolve_left nonempty
    have position : (init ++ [last]).length - 1 = init.length := by
      rw [length_append, length_singleton, Nat.add_sub_cancel]
    have present : getAt Panic.outOfRange init.length (init ++ [last]) = .ok last := by
      rw [getAt, getElem?_concat_length]
    have whole := steps_resume coherent.start.fits coherent.start.embedded (cons_ne_nil last []) []
    have single : model.steps init [] [last] = model.step init last := by
      rw [steps]
      cases model.step init last <;> rfl
    simp only [position, present, ok_bind]
    rw [whole, single]
    exact coherent.start.forward last

theorem start_spec (shaped : Shaped model.numLayers model.numKvHeads model.headDim model.maxSeqLen engine.kvCache)
    (ready : CacheReady model prompts engine.prefixCache.cache) (apart : NoCollision prompts)
    (nonempty : prompt ≠ []) : ∃ started, start model engine prompt = .ok started ∧
      StartedWell model prompts prompt started := by
  obtain ⟨ready', matched, inside, known⟩ := ready.prepare apart prompt
  have cleared : Shaped model.numLayers model.numKvHeads model.headDim model.maxSeqLen engine.kvCache.clear :=
    { shaped with }
  obtain ⟨source, log, sourced, logged, size, correct⟩ := ready'
  generalize found : engine.prefixCache.prepare prompt = prepared at *
  have prefilled : ∃ restored, restoreSession model prepared.2.cache prepared.1.1 prepared.1.2
      engine.kvCache.clear = .ok restored ∧ model.Coherent restored (prompt.take prepared.1.2) := by
    rw [restoreSession]
    by_cases some' : 0 < prepared.1.2 ∧ prepared.1.1.blockIndices ≠ []
    · rw [if_pos some']
      obtain ⟨restored, ran, coherent⟩ := restore_coherent size known cleared
      rw [← matched] at coherent
      exact ⟨_, by rw [ran]; rfl, Coherent.setSeqLen coherent prepared.1.2⟩
    · rw [if_neg some']
      have nothing : prepared.1.2 = 0 := by
        by_contra positive
        apply some'
        refine ⟨Nat.pos_of_ne_zero positive, fun empty => positive ?_⟩
        rw [matched, empty, length_nil, Nat.zero_mul]
      refine ⟨_, rfl, ?_⟩
      rw [nothing, take_zero]
      exact coherent_nil cleared
  obtain ⟨restored, ran, coherent⟩ := prefilled
  obtain ⟨after, ran', shaped', extended⟩ := resume_coherent inside nonempty coherent
  refine ⟨⟨⟨after, prepared.2⟩, prepared.1.1, prepared.1.2, model.steps [] [] prompt⟩, ?_, ?_⟩
  · simp only [start, found, ran, ok_bind, ran']
    rfl
  · refine ⟨shaped', ⟨source, log, sourced, logged, size, correct⟩, rfl, extended, ?_⟩
    rw [matched]
    exact Nat.dvd_mul_left _ _

omit [Zero Element] in
theorem storeInsertions_member {tokenIds : List UInt32} {blocks : List (KvBlockPair Element)} {blockSize start : Nat}
    {insertion : Insertion Element} (member : insertion ∈ storeInsertions blockSize tokenIds start blocks) :
    ∃ number pair, blocks[number]? = some pair ∧
      insertion = ⟨tokenIds, start + number * blockSize, pair.1, pair.2⟩ := by
  induction blocks generalizing start with
  | nil => cases member
  | cons pair rest ih =>
      rw [storeInsertions] at member
      split at member
      · cases member
      · rcases mem_cons.mp member with rfl | later
        · exact ⟨0, pair, rfl, by rw [Nat.zero_mul, Nat.add_zero]⟩
        · obtain ⟨number, other, present, rfl⟩ := ih later
          refine ⟨number + 1, other, present, ?_⟩
          rw [Nat.succ_mul, Nat.add_comm (number * blockSize), Nat.add_assoc]

/-- The extracted blocks are copies of their positions. -/
theorem extractBlocks_copy
    (shaped : Shaped model.numLayers model.numKvHeads model.headDim model.maxSeqLen cache) (start count : Nat) :
    ∃ blocks, extractBlocks model cache start blockLength count = .ok blocks ∧
      ∀ (number : Nat) (pair : KvBlockPair Element), blocks[number]? = some pair →
        CopyOf model cache (start + number * blockLength) pair.1 pair.2 := by
  have layers (number : Nat) : ∃ pairs, ((List.range model.numLayers).mapM fun layer =>
        cache.extractBlock layer (start + number * blockLength) blockLength) = .ok pairs ∧
      CopyOf model cache (start + number * blockLength) (pairs.map Prod.fst) (pairs.map Prod.snd) := by
    have each : ∀ layer < model.numLayers, ∃ pair,
        cache.extractBlock layer (start + number * blockLength) blockLength = .ok pair ∧
        ∀ below : layer < model.numLayers,
          IsBlock cache.keys model.headDim model.maxSeqLen (⟨layer, below⟩ : Fin model.numLayers) model.numKvHeads
            (start + number * blockLength) blockLength pair.1 ∧
          IsBlock cache.values model.headDim model.maxSeqLen (⟨layer, below⟩ : Fin model.numLayers) model.numKvHeads
            (start + number * blockLength) blockLength pair.2 := by
      intro layer below
      obtain ⟨pair, ran, isKeys, isValues⟩ :=
        shaped.extractBlock ⟨layer, below⟩ (start + number * blockLength) blockLength
      exact ⟨pair, ran, fun _ => ⟨isKeys, isValues⟩⟩
    obtain ⟨pairs, ran, _, found⟩ := mapM_range each
    refine ⟨pairs, ran, fun layer => ?_⟩
    obtain ⟨pair, present, isBlocks⟩ := found layer layer.isLt
    obtain ⟨isKeys, isValues⟩ := isBlocks layer.isLt
    refine ⟨pair.1, pair.2, ?_, ?_, isKeys, isValues⟩
    · rw [getElem?_map, present, Option.map_some]
    · rw [getElem?_map, present, Option.map_some]
  have each : ∀ number < count, ∃ pair : KvBlockPair Element, (do
        let pairs ← (List.range model.numLayers).mapM fun layer =>
          cache.extractBlock layer (start + number * blockLength) blockLength
        return (pairs.map Prod.fst, pairs.map Prod.snd)) = Except.ok pair ∧
      CopyOf model cache (start + number * blockLength) pair.1 pair.2 := by
    intro number _
    obtain ⟨pairs, ran, copied⟩ := layers number
    refine ⟨(pairs.map Prod.fst, pairs.map Prod.snd), ?_, copied⟩
    rw [ran]
    rfl
  obtain ⟨blocks, ran, counted, found⟩ := mapM_range each
  refine ⟨blocks, ran, fun number pair present => ?_⟩
  obtain ⟨other, present', copied⟩ := found number (by
    rw [← counted]
    exact (List.getElem?_eq_some_iff.mp present).1)
  rw [present] at present'
  cases present'
  exact copied

variable [DecidableEq Element]

/-- The stored blocks are correct. -/
theorem storeNewBlocks_ready (coherent : model.Coherent engine.kvCache prompt) (listed : prompt ∈ prompts)
    (ready : CacheReady model prompts engine.prefixCache.cache) {start : Nat} (aligned : blockLength ∣ start) :
    ∃ stored, storeNewBlocks model prompt start engine = .ok stored ∧ CacheReady model prompts stored.cache := by
  obtain ⟨source, log, sourced, logged, size, correct⟩ := ready
  have short : min prompt.length engine.kvCache.maxSeqLen ≤ model.maxSeqLen := by
    rw [coherent.shaped.positions]
    exact Nat.min_le_right _ _
  obtain ⟨probe, probed⟩ := coherent.shaped.readable model.layersPositive model.headsPositive short
  obtain ⟨blocks, ran, copies⟩ :=
    extractBlocks_copy coherent.shaped start ((prompt.length - start) / blockLength)
  have before : CacheReady model prompts engine.prefixCache.cache := ⟨source, log, sourced, logged, size, correct⟩
  have after : CacheReady model prompts (engine.prefixCache.storeBlocks prompt start blocks).cache := by
    rw [storeBlocks]
    refine CacheReady.inserts (fun insertion member => ?_) before
    have complete := storeInsertions_complete _ _ _ _ insertion member
    obtain ⟨number, pair, present, rfl⟩ := storeInsertions_member member
    rw [size] at complete ⊢
    refine ⟨listed, Nat.dvd_add aligned (Nat.dvd_mul_left _ _), complete, engine.kvCache, coherent, ?_⟩
    exact copies number pair present
  simp only [storeNewBlocks, probed, ok_bind, size]
  split
  · split
    · rw [ran, ok_bind]
      exact ⟨_, rfl, after⟩
    · exact ⟨_, rfl, before⟩
  · exact ⟨_, rfl, before⟩

end Start

section Decode

/-- The decoded tokens of a run from an empty cache. -/
def decoded (model : CpuModel Element Scalar) (sampling : Sampling Params Scalar Sampler) :
    Nat → List UInt32 → List Scalar → Sampler → List UInt32
  | 0, _, _, _ => []
  | budget + 1, context, lastLogits, sampler =>
      match (sampling.sample sampler lastLogits).1 with
      | none => []
      | some token =>
          if token = eosTokenId then []
          else token :: match model.step context token with
            | .error _ => []
            | .ok logits => decoded model sampling budget (context ++ [token]) logits
                (sampling.sample sampler lastLogits).2

/-- The generated tokens of a run from an empty cache. -/
def coldTokens (model : CpuModel Element Scalar) (sampling : Sampling Params Scalar Sampler) (params : Params)
    (prompt : List UInt32) : List UInt32 :=
  if prompt = [] then []
  else match model.steps [] [] prompt with
    | .error _ => []
    | .ok logits => decoded model sampling (sampling.maxTokens params) prompt logits (sampling.new params)

variable [Zero Element]

theorem decodeLoop_spec (sampling : Sampling Params Scalar Sampler) (budget : Nat) {context : List UInt32} (coherent : model.Coherent cache context)
    (lastLogits : List Scalar) (sampler : Sampler) (output : List UInt32) :
    ∃ after, decodeLoop model sampling budget context.length lastLogits sampler output cache =
        .ok (output ++ decoded model sampling budget context lastLogits sampler, after) ∧
      Shaped model.numLayers model.numKvHeads model.headDim model.maxSeqLen after := by
  induction budget generalizing context lastLogits sampler output cache with
  | zero => exact ⟨cache, by rw [decodeLoop, decoded, append_nil], coherent.shaped⟩
  | succ budget ih =>
      rw [decodeLoop, decoded]
      cases sampled : (sampling.sample sampler lastLogits).1 with
      | none => exact ⟨cache, by simp only [append_nil], coherent.shaped⟩
      | some token =>
          simp only
          by_cases stop : token = eosTokenId
          · rw [if_pos stop, if_pos stop, append_nil]
            exact ⟨cache, rfl, coherent.shaped⟩
          · rw [if_neg stop, if_neg stop]
            obtain ⟨after, ran, shaped, extended⟩ := coherent.forward token
            rw [ran, ok_bind]
            simp only
            cases result : model.step context token with
            | error error => exact ⟨after, rfl, shaped⟩
            | ok logits =>
                have later := ih (extended logits result) logits (sampling.sample sampler lastLogits).2
                  (output ++ [token])
                rw [length_append, length_singleton, append_assoc, singleton_append] at later
                exact later

/-- An engine whose blocks are correct. -/
structure Ready (model : CpuModel Element Scalar) (prompts : List (List UInt32))
    (engine : PrefixCachedEngine Element) : Prop where
  shaped : Shaped model.numLayers model.numKvHeads model.headDim model.maxSeqLen engine.kvCache
  cached : CacheReady model prompts engine.prefixCache.cache

theorem ready_new (maxCacheBlocks : Nat) : Ready model prompts (PrefixCachedEngine.new model maxCacheBlocks) :=
  ⟨shaped_new, new_ready maxCacheBlocks⟩

variable [DecidableEq Element]

/-- A ready engine returns the cold tokens, and it stays ready. -/
theorem Ready.generate (ready : Ready model prompts engine) (apart : NoCollision prompts) (listed : prompt ∈ prompts)
    (sampling : Sampling Params Scalar Sampler) (params : Params) : ∃ after, generate model sampling params prompt engine =
        .ok (coldTokens model sampling params prompt, after) ∧ Ready model prompts after := by
  rw [PrefixCachedEngine.generate, coldTokens]
  by_cases empty : prompt = []
  · rw [if_pos empty, if_pos empty]
    exact ⟨engine, rfl, ready⟩
  rw [if_neg empty, if_neg empty]
  obtain ⟨started, ran, well⟩ := start_spec ready.shaped ready.cached apart empty
  simp only [ran, ok_bind]
  cases result : started.lastLogits with
  | error error =>
      have cold := well.logits
      rw [result] at cold
      rw [← cold]
      exact ⟨_, rfl, well.shaped, well.ready.keeps (foldl_release_keeps _ _)⟩
  | ok logits =>
      have coherent := well.coherent logits result
      have cold := well.logits
      rw [result] at cold
      obtain ⟨stored, stores, readyStored⟩ := storeNewBlocks_ready coherent listed well.ready well.aligned
      obtain ⟨after, decodes, shaped⟩ := decodeLoop_spec sampling (sampling.maxTokens params) coherent logits
        (sampling.new params) []
      simp only [stores, ok_bind, decodes, ← cold]
      exact ⟨_, rfl, shaped, readyStored.keeps (foldl_release_keeps _ _)⟩

/-- A sequence of requests keeps the engine ready. -/
theorem Ready.serve (ready : Ready model prompts engine) (apart : NoCollision prompts)
    (sampling : Sampling Params Scalar Sampler) {requests : List (List UInt32 × Params)}
    (listed : ∀ request ∈ requests, request.1 ∈ prompts) :
    ∃ after, serve model sampling requests engine = .ok after ∧ Ready model prompts after := by
  refine foldlM_keeps (fun request member engine ready => ?_) ready
  obtain ⟨after, ran, ready'⟩ := ready.generate apart (listed request member) sampling request.2
  exact ⟨after, by rw [ran]; rfl, ready'⟩

/-- Each call after a sequence of calls returns the tokens of a fresh engine. A prefill that succeeds leaves
the entries of the prompt as a cold prefill does. -/
theorem cached_generation_cold (model : CpuModel Element Scalar) (sampling : Sampling Params Scalar Sampler)
    (maxCacheBlocks : Nat) (before : List (List UInt32 × Params)) (prompt : List UInt32) (params : Params)
    (apart : NoCollision (prompt :: before.map Prod.fst)) :
    ∃ used, serve model sampling before (new model maxCacheBlocks) = .ok used ∧
      (∃ tokens after afterFresh, generate model sampling params prompt used = .ok (tokens, after) ∧
        generate model sampling params prompt (new model maxCacheBlocks) = .ok (tokens, afterFresh)) ∧
      (prompt ≠ [] → ∃ started cold, start model used prompt = .ok started ∧
        model.forwardPrefill prompt 0 (new model maxCacheBlocks).kvCache = .ok cold ∧
        started.lastLogits = cold.2 ∧ ∀ logits, cold.2 = .ok logits →
          (started.engine.kvCache.entriesBefore prompt.length : List model.Entry) =
            cold.1.entriesBefore prompt.length) := by
  have fresh : Ready model (prompt :: before.map Prod.fst) (new model maxCacheBlocks) := ready_new maxCacheBlocks
  have listed : ∀ request ∈ before, request.1 ∈ prompt :: before.map Prod.fst := fun request member =>
    mem_cons_of_mem _ (mem_map_of_mem member)
  obtain ⟨used, served, ready⟩ := fresh.serve apart sampling listed
  obtain ⟨after, generated, _⟩ := ready.generate apart mem_cons_self sampling params
  obtain ⟨afterFresh, generatedFresh, _⟩ := fresh.generate apart mem_cons_self sampling params
  refine ⟨used, served, ⟨_, after, afterFresh, generated, generatedFresh⟩, fun nonempty => ?_⟩
  obtain ⟨started, ran, well⟩ := start_spec ready.shaped ready.cached apart nonempty
  obtain ⟨cold, prefilled, _, extended⟩ := (coherent_nil fresh.shaped).forwardPrefill nonempty
  refine ⟨started, _, ran, prefilled, well.logits, fun logits succeeded => ?_⟩
  have same := (extended logits succeeded).same
  have same' := (well.coherent logits (well.logits.trans succeeded)).same
  rw [nil_append] at same
  rw [same', same]

/-- One layer with one head, where an entry holds its token and its position. -/
def countingModel : CpuModel Nat Nat where
  numLayers := 1
  numKvHeads := 1
  headDim := 1
  maxSeqLen := 20
  layersPositive := Nat.one_pos
  headsPositive := Nat.one_pos
  embeds := fun _ => true
  entry := fun entries token _ _ _ _ => entries.length + token.toNat + 1
  logits := fun entries => entries.map fun entry => entry .key 0 0 0

/-- The last logit is the next token. -/
def lastLogit : Sampling Nat Nat Unit where
  maxTokens := id
  new := fun _ => ()
  sample := fun _ logits => (logits.getLast?.map UInt32.ofNat, ())

def repeatedPrompt : List UInt32 := List.replicate 17 7

/-- The second request of a prompt with one full block. -/
theorem repeatedPrompt_cold :
    ∃ used, serve countingModel lastLogit [(repeatedPrompt, 2)] (new countingModel 4) = .ok used ∧
      (∃ tokens after afterFresh, generate countingModel lastLogit 2 repeatedPrompt used = .ok (tokens, after) ∧
        generate countingModel lastLogit 2 repeatedPrompt (new countingModel 4) = .ok (tokens, afterFresh)) ∧
      (repeatedPrompt ≠ [] → ∃ started cold, start countingModel used repeatedPrompt = .ok started ∧
        countingModel.forwardPrefill repeatedPrompt 0 (new countingModel 4).kvCache = .ok cold ∧
        started.lastLogits = cold.2 ∧ ∀ logits, cold.2 = .ok logits →
          (started.engine.kvCache.entriesBefore repeatedPrompt.length : List countingModel.Entry) =
            cold.1.entriesBefore repeatedPrompt.length) := by
  apply cached_generation_cold countingModel lastLogit 4 [(repeatedPrompt, 2)] repeatedPrompt 2
  intro first memberFirst second memberSecond i j insideFirst insideSecond _
  have same (prompt : List UInt32) (member : prompt ∈ [repeatedPrompt, repeatedPrompt]) : prompt = repeatedPrompt := by
    rcases mem_cons.mp member with same | last
    · exact same
    · exact mem_singleton.mp last
  rw [same first memberFirst] at insideFirst ⊢
  rw [same second memberSecond] at insideSecond ⊢
  simp only [repeatedPrompt, length_replicate, blockLength] at insideFirst insideSecond
  have number : i = j := by omega
  rw [number]

end Decode

end Pictor.KvStore.PrefixCachedEngine
