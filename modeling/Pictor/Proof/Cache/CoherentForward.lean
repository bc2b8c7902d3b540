import Pictor.Construction.Cache.PrefixCachedEngine
import Pictor.Library.Footprint
import Pictor.Proof.Cache.KvCacheBlocks

namespace Pictor.KvStore.KvCache
open Footprint Slice Outcome List

variable {Element : Type} {numLayers numKvHeads headDim maxSeqLen : Nat} {cache : KvCache Element}

/-- A cell is a place of one of the two arrays. -/
abbrev Cell (numLayers numKvHeads maxSeqLen : Nat) := Kind × Place numLayers numKvHeads maxSeqLen

def cellRow (headDim : Nat) (cache : KvCache Element) (cell : Cell numLayers numKvHeads maxSeqLen) : List Element :=
  rowAt headDim (cache.array cell.1) cell.2

/-- The row of a cell in the list of the entries. -/
def entryRow [Zero Element] (entries : List (KvEntry Element numLayers numKvHeads headDim))
    (cell : Cell numLayers numKvHeads maxSeqLen) : List Element :=
  List.ofFn ((entries.getD cell.2.pos fun _ _ _ _ => 0) cell.1 cell.2.layer cell.2.head)

variable (shaped : Shaped numLayers numKvHeads headDim maxSeqLen cache)
include shaped

theorem Shaped.full (kind : Kind) : (cache.array kind).length = numLayers * numKvHeads * maxSeqLen * headDim := by
  cases kind with
  | key => exact shaped.keys
  | value => exact shaped.values

theorem Shaped.ofFn_entryAt [Zero Element] (kind : Kind) (place : Place numLayers numKvHeads maxSeqLen) :
    List.ofFn ((cache.entryAt place.pos : KvEntry Element numLayers numKvHeads headDim) kind place.layer place.head) =
      rowAt headDim (cache.array kind) place := by
  have fits := place_fits (shaped.full kind) place
  apply ext_getElem?
  intro col
  rw [rowAt, getElem?_slice, List.getElem?_ofFn]
  by_cases below : col < headDim
  · rw [dif_pos below, if_pos below, entryAt, shaped.offset]
    exact (getElem?_getD 0 (by omega)).symm
  · rw [dif_neg below, if_neg below]

/-- The entry of a position is given by its rows. -/
theorem Shaped.entryAt_eq_iff [Zero Element] (pos : Fin maxSeqLen)
    (entry : KvEntry Element numLayers numKvHeads headDim) : cache.entryAt pos = entry ↔ ∀ kind layer head,
      rowAt headDim (cache.array kind) ⟨layer, head, pos⟩ = List.ofFn (entry kind layer head) := by
  constructor
  · rintro rfl kind layer head
    exact (shaped.ofFn_entryAt kind ⟨layer, head, pos⟩).symm
  · intro rows
    funext kind layer head
    apply ofFn_injective
    rw [← rows]
    exact shaped.ofFn_entryAt kind ⟨layer, head, pos⟩

omit shaped

section Writes

/-- A program on caches of a shape writes a region. -/
abbrev WritesRows (headDim : Nat) (region : Set (Cell numLayers numKvHeads maxSeqLen))
    (target : Cell numLayers numKvHeads maxSeqLen → List Element)
    (work : KvCache Element → Except Panic (KvCache Element)) : Prop :=
  Writes (Shaped numLayers numKvHeads headDim maxSeqLen) (cellRow headDim) region target work

def withArray (cache : KvCache Element) : Kind → List Element → KvCache Element
  | .key, keys => { cache with keys }
  | .value, values => { cache with values }

def storeRow (kind : Kind) (place : Place numLayers numKvHeads maxSeqLen) (vector : List Element)
    (cache : KvCache Element) : Except Panic (KvCache Element) :=
  match kind with
  | .key => cache.storeKey place.layer place.head place.pos vector
  | .value => cache.storeValue place.layer place.head place.pos vector

theorem array_withArray (cache : KvCache Element) (kind other : Kind) (array : List Element) :
    (cache.withArray kind array).array other = if other = kind then array else cache.array other := by
  cases kind <;> cases other <;> rfl

theorem Shaped.withArray (shaped : Shaped numLayers numKvHeads headDim maxSeqLen cache) (kind : Kind)
    {array : List Element} (full : array.length = numLayers * numKvHeads * maxSeqLen * headDim) :
    Shaped numLayers numKvHeads headDim maxSeqLen (cache.withArray kind array) := by
  cases kind with
  | key => exact shaped.withKeys full
  | value => exact shaped.withValues full

theorem storeRow_eq (kind : Kind) (place : Place numLayers numKvHeads maxSeqLen) (vector : List Element)
    (cache : KvCache Element) : storeRow kind place vector cache =
      (cache.store place.layer place.head place.pos vector (cache.array kind)).map (cache.withArray kind) := by
  cases kind with
  | key =>
      simp only [storeRow, storeKey, array]
      cases cache.store place.layer place.head place.pos vector cache.keys <;> rfl
  | value =>
      simp only [storeRow, storeValue, array]
      cases cache.store place.layer place.head place.pos vector cache.values <;> rfl

/-- A stored vector writes its cell. -/
theorem writes_storeRow (kind : Kind) (place : Place numLayers numKvHeads maxSeqLen)
    (target : Cell numLayers numKvHeads maxSeqLen → List Element) {vector : List Element}
    (sized : vector.length = headDim) (named : target (kind, place) = vector) :
    WritesRows headDim {(kind, place)} target (storeRow kind place vector) := by
  intro cache shaped
  obtain ⟨array, stored, full, rows⟩ := shaped.store (shaped.full kind) place sized
  refine ⟨cache.withArray kind array, ?_, shaped.withArray kind full, ?_, ?_⟩
  · rw [storeRow_eq, stored]
    rfl
  · rintro _ rfl
    rw [cellRow, array_withArray, if_pos rfl, rows, if_pos rfl, named]
  · rintro ⟨other, place'⟩ apart
    rw [cellRow, cellRow, array_withArray]
    by_cases same : other = kind
    · rw [if_pos same, rows, if_neg, same]
      intro here
      apply apart
      change place' = place at here
      rw [Set.mem_singleton_iff, same, here]
    · rw [if_neg same]

/-- A stored entry writes the cells of its position. -/
theorem writes_storeEntry (pos : Fin maxSeqLen) (entry : KvEntry Element numLayers numKvHeads headDim) :
    WritesRows headDim {cell | cell.2.pos = pos}
      (fun cell : Cell numLayers numKvHeads maxSeqLen => List.ofFn (entry cell.1 cell.2.layer cell.2.head))
      (storeEntry pos entry) := by
  have row (kind : Kind) (layer : Fin numLayers) (head : Fin numKvHeads) :=
    writes_storeRow kind ⟨layer, head, pos⟩
      (fun cell : Cell numLayers numKvHeads maxSeqLen => List.ofFn (entry cell.1 cell.2.layer cell.2.head))
      (length_ofFn (f := entry kind layer head)) rfl
  have loops := Writes.foldlM fun layer (_ : layer ∈ List.finRange numLayers) =>
    Writes.foldlM fun head (_ : head ∈ List.finRange numKvHeads) =>
      (row .key layer head).bind (row .value layer head)
  refine Writes.congr loops ?_
  ext ⟨kind, layer, head, other⟩
  simp only [Set.mem_ofPred_eq, mem_finRange, true_and, Set.mem_union, Set.mem_singleton_iff, Prod.mk.injEq,
    Place.mk.injEq]
  cases kind with
  | key => simp
  | value => simp

variable {layer : Fin numLayers} {startPos blockSize : Nat} {keys values : List Element} {source : KvCache Element}

/-- An injected block writes the cells of its positions in the layer. -/
theorem writes_injectBlock [Zero Element] (shaped : Shaped numLayers numKvHeads headDim maxSeqLen source)
    (isKeys : IsBlock source.keys headDim maxSeqLen layer numKvHeads startPos blockSize keys)
    (isValues : IsBlock source.values headDim maxSeqLen layer numKvHeads startPos blockSize values) :
    WritesRows headDim {cell : Cell numLayers numKvHeads maxSeqLen | cell.2.layer = layer ∧
        startPos ≤ cell.2.pos ∧ cell.2.pos < startPos + blockSize} (cellRow headDim source)
      fun cache => cache.injectBlock layer startPos blockSize keys values := by
  intro cache shaped'
  obtain ⟨keys', ranKeys, fullKeys, rowsKeys⟩ := shaped'.inject shaped'.keys shaped.keys isKeys
  obtain ⟨values', ranValues, fullValues, rowsValues⟩ := shaped'.inject shaped'.values shaped.values isValues
  refine ⟨{ cache with keys := keys', values := values' }, ?_, ?_, ?_, ?_⟩
  · simp only [injectBlock, ranKeys, ranValues, ok_bind]
    rfl
  · exact (shaped'.withKeys fullKeys).withValues fullValues
  · rintro ⟨kind, place⟩ inside
    cases kind with
    | key => exact (rowsKeys place).trans (if_pos inside)
    | value => exact (rowsValues place).trans (if_pos inside)
  · rintro ⟨kind, place⟩ apart
    cases kind with
    | key => exact (rowsKeys place).trans (if_neg apart)
    | value => exact (rowsValues place).trans (if_neg apart)

theorem Shaped.extractBlock [Zero Element] (shaped : Shaped numLayers numKvHeads headDim maxSeqLen cache)
    (layer : Fin numLayers) (startPos blockSize : Nat) :
    ∃ pair, cache.extractBlock layer startPos blockSize = .ok pair ∧
      IsBlock cache.keys headDim maxSeqLen layer numKvHeads startPos blockSize pair.1 ∧
      IsBlock cache.values headDim maxSeqLen layer numKvHeads startPos blockSize pair.2 := by
  obtain ⟨keys, ranKeys, isKeys⟩ : ∃ block, cache.extract cache.keys layer startPos blockSize = .ok block ∧
      IsBlock cache.keys headDim maxSeqLen layer numKvHeads startPos blockSize block := shaped.extract shaped.keys
  obtain ⟨values, ranValues, isValues⟩ : ∃ block, cache.extract cache.values layer startPos blockSize = .ok block ∧
      IsBlock cache.values headDim maxSeqLen layer numKvHeads startPos blockSize block := shaped.extract shaped.values
  refine ⟨(keys, values), ?_, isKeys, isValues⟩
  simp only [KvCache.extractBlock, ranKeys, ranValues, ok_bind]
  rfl

/-- The first positions of the first head can be read. -/
theorem Shaped.readable (shaped : Shaped numLayers numKvHeads headDim maxSeqLen cache) (layers : 0 < numLayers)
    (heads : 0 < numKvHeads) {count : Nat} (short : count ≤ maxSeqLen) :
    ∃ keys, cache.keysFor 0 0 count = .ok keys := by
  let rows pos := slice cache.keys (((0 * numKvHeads + 0) * maxSeqLen + pos) * headDim) headDim
  have read := shaped.read shaped.keys ⟨0, layers⟩ ⟨0, heads⟩ short fun pos inside => (rfl : _ = rows pos)
  exact ⟨_, read⟩

end Writes

end Pictor.KvStore.KvCache

namespace Pictor.KvStore
open Footprint KvCache Outcome List

variable {Element Scalar : Type}

namespace CpuModel

section Reference

variable (model : CpuModel Element Scalar)

/-- The entries of a run from an empty cache. -/
def entries (tokens : List UInt32) : List model.Entry :=
  tokens.foldl (fun entries token => entries ++ [model.entry entries token]) []

/-- The result for one token after a context. -/
def step (context : List UInt32) (token : UInt32) : Except ModelError (List Scalar) :=
  if model.maxSeqLen ≤ context.length then .error (.sequenceTooLong (context.length + 1) model.maxSeqLen)
  else if !model.embeds token then .error .missingTensor
  else .ok (model.logits (model.entries (context ++ [token])))

/-- The result for several tokens after a context. -/
def steps (context : List UInt32) (lastLogits : List Scalar) : List UInt32 → Except ModelError (List Scalar)
  | [] => .ok lastLogits
  | token :: rest =>
      match model.step context token with
      | .error error => .error error
      | .ok logits => steps (context ++ [token]) logits rest

variable {model}

theorem entries_concat (tokens : List UInt32) (token : UInt32) :
    model.entries (tokens ++ [token]) = model.entries tokens ++ [model.entry (model.entries tokens) token] := by
  rw [entries, foldl_concat, entries]

theorem length_entries (tokens : List UInt32) : (model.entries tokens).length = tokens.length := by
  induction tokens using List.reverseRecOn with
  | nil => rfl
  | append_singleton tokens token ih =>
      rw [entries_concat, length_append, length_append, ih, length_singleton, length_singleton]

/-- The entries of a prefix are the first entries. -/
theorem entries_append (tokens rest : List UInt32) :
    ∃ later, model.entries (tokens ++ rest) = model.entries tokens ++ later := by
  induction rest using List.reverseRecOn with
  | nil => exact ⟨[], by rw [append_nil, append_nil]⟩
  | append_singleton rest token ih =>
      obtain ⟨later, same⟩ := ih
      refine ⟨later ++ [model.entry (model.entries (tokens ++ rest)) token], ?_⟩
      rw [← append_assoc, entries_concat, ← append_assoc, ← same]

theorem take_entries {tokens other : List UInt32} {count : Nat} (inside : count ≤ tokens.length)
    (inside' : count ≤ other.length) (agree : tokens.take count = other.take count) :
    (model.entries tokens).take count = (model.entries other).take count := by
  have split (tokens : List UInt32) (inside : count ≤ tokens.length) :
      (model.entries tokens).take count = model.entries (tokens.take count) := by
    obtain ⟨later, same⟩ := @entries_append _ _ model (tokens.take count) (tokens.drop count)
    rw [take_append_drop] at same
    rw [same, take_left' (by rw [length_entries, length_take, Nat.min_eq_left inside])]
  rw [split tokens inside, split other inside', agree]

theorem steps_append (context first second : List UInt32) (lastLogits : List Scalar) :
    model.steps context lastLogits (first ++ second) =
      model.steps context lastLogits first >>= fun logits => model.steps (context ++ first) logits second := by
  induction first generalizing context lastLogits with
  | nil =>
      rw [nil_append, append_nil]
      rfl
  | cons token first ih =>
      rw [cons_append, steps, steps]
      cases model.step context token with
      | error error => rfl
      | ok logits =>
          change model.steps _ _ _ = _
          rw [ih, append_assoc, singleton_append]

theorem steps_ok {context tokens : List UInt32} (fits : context.length + tokens.length ≤ model.maxSeqLen)
    (embedded : ∀ token ∈ tokens, model.embeds token = true) (lastLogits : List Scalar) :
    ∃ logits, model.steps context lastLogits tokens = .ok logits := by
  induction tokens generalizing context lastLogits with
  | nil => exact ⟨lastLogits, rfl⟩
  | cons token rest ih =>
      rw [length_cons] at fits
      have room : ¬model.maxSeqLen ≤ context.length := by omega
      have known := embedded token mem_cons_self
      have fits' : (context ++ [token]).length + rest.length ≤ model.maxSeqLen := by
        rw [length_append, length_singleton]
        omega
      rw [steps, step, if_neg room, known]
      exact ih fits' (fun other member => embedded other (mem_cons_of_mem _ member)) _

/-- The logits so far do not matter if a token follows. -/
theorem steps_resume {before rest : List UInt32} (fits : before.length ≤ model.maxSeqLen)
    (embedded : ∀ token ∈ before, model.embeds token = true) (more : rest ≠ []) (lastLogits : List Scalar) :
    model.steps [] [] (before ++ rest) = model.steps before lastLogits rest := by
  obtain ⟨logits, ran⟩ := @steps_ok _ _ model [] before (by simpa using fits) embedded []
  obtain ⟨token, rest, rfl⟩ := exists_cons_of_ne_nil more
  rw [steps_append, ran, ok_bind, nil_append, steps, steps]

end Reference

variable [Zero Element]

/-- The entries of a cache begin with the entries of the tokens, and all the tokens were accepted. -/
structure Coherent (model : CpuModel Element Scalar) (cache : KvCache Element) (tokens : List UInt32) : Prop where
  shaped : Shaped model.numLayers model.numKvHeads model.headDim model.maxSeqLen cache
  fits : tokens.length ≤ model.maxSeqLen
  embedded : ∀ token ∈ tokens, model.embeds token = true
  same : cache.entriesBefore tokens.length = model.entries tokens

variable {model : CpuModel Element Scalar} {cache : KvCache Element}

theorem coherent_nil (shaped : Shaped model.numLayers model.numKvHeads model.headDim model.maxSeqLen cache) :
    model.Coherent cache [] := by
  constructor
  · exact shaped
  · exact Nat.zero_le _
  · intro token member
    cases member
  · rfl

variable {tokens context : List UInt32} {cell : Cell model.numLayers model.numKvHeads model.maxSeqLen} {count : Nat}

/-- The rows of a coherent cache are the rows of the cold entries. -/
theorem Coherent.row (coherent : model.Coherent cache tokens) (below : cell.2.pos < tokens.length) :
    cellRow model.headDim cache cell = entryRow (model.entries tokens) cell := by
  have entry : (model.entries tokens)[(cell.2.pos : Nat)]? = some (cache.entryAt cell.2.pos) := by
    rw [← coherent.same, entriesBefore, getElem?_map, getElem?_range below]
    rfl
  rw [cellRow, entryRow, getD_eq_getElem?_getD, entry, Option.getD_some]
  exact (coherent.shaped.ofFn_entryAt cell.1 cell.2).symm

/-- A cache is coherent if its rows are the rows of the cold entries. -/
theorem coherent_of_rows (shaped : Shaped model.numLayers model.numKvHeads model.headDim model.maxSeqLen cache)
    (fits : tokens.length ≤ model.maxSeqLen) (embedded : ∀ token ∈ tokens, model.embeds token = true)
    (rows : ∀ cell : Cell model.numLayers model.numKvHeads model.maxSeqLen, cell.2.pos < tokens.length → cellRow model.headDim cache cell = entryRow (model.entries tokens) cell) : model.Coherent cache tokens := by
  refine ⟨shaped, fits, embedded, ?_⟩
  apply ext_getElem?
  intro pos
  by_cases below : pos < tokens.length
  · have entry := getElem?_eq_getElem (l := model.entries tokens) (i := pos) (by rwa [length_entries])
    rw [entriesBefore, getElem?_map, getElem?_range below, entry, Option.map_some]
    congr 1
    apply (shaped.entryAt_eq_iff ⟨pos, by omega⟩ _).mpr
    intro kind layer head
    have row := rows (kind, ⟨layer, head, ⟨pos, by omega⟩⟩) below
    rw [entryRow, getD_eq_getElem?_getD, entry, Option.getD_some] at row
    exact row
  · rw [getElem?_eq_none, getElem?_eq_none]
    · rw [length_entries]
      omega
    · rw [entriesBefore, length_map, length_range]
      omega

theorem entryRow_take {entries : List model.Entry} (below : cell.2.pos < count) :
    entryRow (entries.take count) cell = entryRow entries cell := by
  rw [entryRow, entryRow, getD_eq_getElem?_getD, getD_eq_getElem?_getD, getElem?_take_of_lt below]

/-- Two lists of tokens with a common start have the same rows there. -/
theorem entryRow_agree {other : List UInt32} (inside : count ≤ tokens.length) (inside' : count ≤ other.length)
    (agree : tokens.take count = other.take count) (below : cell.2.pos < count) :
    entryRow (model.entries tokens) cell = entryRow (model.entries other) cell := by
  rw [← entryRow_take below, take_entries inside inside' agree, entryRow_take below]

theorem Coherent.start {rest : List UInt32} (coherent : model.Coherent cache (tokens ++ rest)) :
    model.Coherent cache tokens := by
  have fits := coherent.fits
  rw [length_append] at fits
  apply coherent_of_rows coherent.shaped (by omega)
  · exact fun token member => coherent.embedded token (mem_append_left _ member)
  · intro cell below
    rw [coherent.row (by rw [length_append]; omega)]
    apply entryRow_agree _ (Nat.le_refl _) _ below
    · rw [length_append]
      omega
    · rw [take_left, take_length]

variable (coherent : model.Coherent cache context)
include coherent

/-- A forward pass at the end of the context gives the cold result, and it adds the entry of the token. -/
theorem Coherent.forward (token : UInt32) :
    ∃ after, model.forward token context.length cache = .ok (after, model.step context token) ∧
      Shaped model.numLayers model.numKvHeads model.headDim model.maxSeqLen after ∧
      ∀ logits, model.step context token = .ok logits → model.Coherent after (context ++ [token]) := by
  rw [CpuModel.forward, step, coherent.shaped.positions]
  by_cases full : model.maxSeqLen ≤ context.length
  · rw [if_pos full, if_pos full]
    exact ⟨cache, rfl, coherent.shaped, fun _ wrong => nomatch wrong⟩
  rw [if_neg full, if_neg full]
  cases known : model.embeds token with
  | false => exact ⟨cache, rfl, coherent.shaped, fun _ wrong => nomatch wrong⟩
  | true =>
      have room : context.length < model.maxSeqLen := Nat.lt_of_not_le full
      obtain ⟨after, stored, written⟩ :=
        writes_storeEntry ⟨context.length, room⟩ (model.entry (model.entries context) token) cache coherent.shaped
      have extended : model.Coherent after (context ++ [token]) := by
        apply coherent_of_rows written.valid
        · rwa [length_append, length_singleton]
        · intro other member
          rcases mem_append.mp member with earlier | last
          · exact coherent.embedded other earlier
          · rw [mem_singleton.mp last]
            exact known
        · intro cell below
          rw [length_append, length_singleton] at below
          by_cases last : (cell.2.pos : Nat) = context.length
          · rw [written.inside cell (Fin.ext last), entryRow, entries_concat, getD_eq_getElem?_getD, last,
              ← @length_entries _ _ model context, getElem?_concat_length, Option.getD_some]
          · have earlier : cell.2.pos < context.length := by omega
            rw [written.outside cell fun here => last (congrArg Fin.val here), coherent.row earlier]
            apply entryRow_agree (Nat.le_refl _) _ _ earlier
            · rw [length_append]
              omega
            · rw [take_left, take_length]
      refine ⟨after, ?_, written.valid, fun _ _ => extended⟩
      have same := extended.same
      rw [length_append, length_singleton] at same
      simp only [coherent.same]
      simp only [Bool.not_true, Bool.false_eq_true, if_false, stored, ok_bind]
      rw [same]
      rfl

/-- The loop over tokens gives the cold result. -/
theorem Coherent.forwardEach (tokens : List UInt32) (lastLogits : List Scalar) :
    ∃ after, model.forwardEach tokens context.length lastLogits cache =
        .ok (after, model.steps context lastLogits tokens) ∧
      Shaped model.numLayers model.numKvHeads model.headDim model.maxSeqLen after ∧
      ∀ logits, model.steps context lastLogits tokens = .ok logits → model.Coherent after (context ++ tokens) := by
  induction tokens generalizing context lastLogits cache with
  | nil =>
      refine ⟨cache, rfl, coherent.shaped, fun _ _ => ?_⟩
      rwa [append_nil]
  | cons token rest ih =>
      obtain ⟨after, ran, shaped, extended⟩ := coherent.forward token
      rw [CpuModel.forwardEach, ran, steps]
      simp only [ok_bind]
      cases result : model.step context token with
      | error error => exact ⟨after, rfl, shaped, fun _ wrong => nomatch wrong⟩
      | ok logits =>
          have later := ih (extended logits result) logits
          rw [length_append, length_singleton, append_assoc, singleton_append] at later
          exact later

theorem Coherent.forwardPrefill (more : tokens ≠ []) :
    ∃ after, model.forwardPrefill tokens context.length cache = .ok (after, model.steps context [] tokens) ∧
      Shaped model.numLayers model.numKvHeads model.headDim model.maxSeqLen after ∧
      ∀ logits, model.steps context [] tokens = .ok logits → model.Coherent after (context ++ tokens) := by
  match tokens, more with
  | [token], _ =>
      obtain ⟨after, ran, rest⟩ := coherent.forward token
      have single : model.steps context [] [token] = model.step context token := by
        rw [steps]
        cases model.step context token <;> rfl
      rw [CpuModel.forwardPrefill, single]
      exact ⟨after, ran, rest⟩
  | first :: second :: rest, _ => exact coherent.forwardEach (first :: second :: rest) []

end CpuModel

end Pictor.KvStore
