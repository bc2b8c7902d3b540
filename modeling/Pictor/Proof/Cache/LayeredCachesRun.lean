import Pictor.Construction.Cache.LayeredCaches
import Pictor.Library.Outcome
import Pictor.Library.RowMajor

namespace Pictor.LayeredCaches
open Lockstep Tiling Slice Outcome RowMajor Transitions List

variable {Scalar : Type}

/-- The keys and the values of a row have one element for each head and dimension. -/
def RowFits (width : Nat) (row : KvRow Scalar) : Prop := row.1.length = width ∧ row.2.length = width

section Quantized

variable {quantizer : RowQuantizer Scalar} {capacity numKvHeads headDim : Nat}

theorem length_quantizeRowI8 (row : List Scalar) : (quantizeRowI8 quantizer row).1.length = row.length := by
  rw [quantizeRowI8]
  by_cases empty : row = []
  · rw [if_pos empty, empty]
    rfl
  · rw [if_neg empty, length_map]

namespace QuantizedKvLayer

/-- The arrays of a layer have the size of its shape. -/
structure Sized (capacity numKvHeads headDim : Nat) (layer : QuantizedKvLayer Scalar) : Prop where
  heads : layer.numKvHeads = numKvHeads
  dim : layer.headDim = headDim
  room : layer.capacity = capacity
  keysI8 : layer.keysI8.length = capacity * numKvHeads * headDim
  keyScales : layer.keyScales.length = capacity * numKvHeads
  valuesI8 : layer.valuesI8.length = capacity * numKvHeads * headDim
  valueScales : layer.valueScales.length = capacity * numKvHeads

theorem sized_new [Zero Scalar] : (new capacity numKvHeads headDim : QuantizedKvLayer Scalar).Sized capacity numKvHeads headDim := by
  constructor
  · rfl
  · rfl
  · rfl
  · exact length_replicate
  · exact length_replicate
  · exact length_replicate
  · exact length_replicate

theorem Sized.pushHead {layer : QuantizedKvLayer Scalar} (sized : layer.Sized capacity numKvHeads headDim)
    (room : layer.len < capacity) {row : KvRow Scalar} (fits : RowFits (numKvHeads * headDim) row) {head : Nat}
    (inside : head < numKvHeads) :
    ∃ next, pushHead quantizer row.1 row.2 layer head = .ok next ∧ next.Sized capacity numKvHeads headDim ∧
      next.len = layer.len := by
  have place := place_lt room inside
  have data := Nat.mul_le_mul_right headDim (Nat.succ_le_of_lt place)
  have source := Nat.mul_le_mul_right headDim (Nat.succ_le_of_lt inside)
  rw [Nat.succ_mul] at data source
  have width {elements : List Scalar} (full : elements.length = numKvHeads * headDim) :
      (slice elements (head * headDim) headDim).length = headDim := length_slice (by omega)
  have read {elements : List Scalar} (full : elements.length = numKvHeads * headDim) :
      part (Failure.panic : Failure QuantKvError) elements (head * headDim) (head * headDim + headDim) =
        .ok (slice elements (head * headDim) headDim) := by
    rw [part_inside (Nat.le_add_right _ _) (by rw [full]; exact source), Nat.add_sub_cancel_left]
  have code {elements : List Scalar} (full : elements.length = numKvHeads * headDim) :
      (quantizeRowI8 quantizer (slice elements (head * headDim) headDim)).1.length = headDim := by
    rw [length_quantizeRowI8, width full]
  have write {elements : List Scalar} (full : elements.length = numKvHeads * headDim) {buffer : List Int8}
      (room : buffer.length = capacity * numKvHeads * headDim) :=
    @onPart_copyOver (Failure QuantKvError) Int8 .panic .panic ((layer.len * numKvHeads + head) * headDim)
      ((layer.len * numKvHeads + head) * headDim + headDim)
      (quantizeRowI8 quantizer (slice elements (head * headDim) headDim)).1 buffer (by rw [code full])
      (by rw [room]; exact data)
  have copied {elements : List Scalar} (full : elements.length = numKvHeads * headDim) {buffer : List Int8}
      (room : buffer.length = capacity * numKvHeads * headDim) :
      (copyFromSlice buffer ((layer.len * numKvHeads + head) * headDim)
        (quantizeRowI8 quantizer (slice elements (head * headDim) headDim)).1).length =
          capacity * numKvHeads * headDim := by
    rw [length_copyFromSlice (by rw [code full, room]; exact data), room]
  rw [QuantizedKvLayer.pushHead]
  simp only [dataOffset, scaleOffset, sized.heads, sized.dim, read fits.1, read fits.2, ok_bind,
    write fits.1 sized.keysI8, write fits.2 sized.valuesI8, setAt_inside (sized.keyScales.symm ▸ place),
    setAt_inside (sized.valueScales.symm ▸ place)]
  refine ⟨_, rfl, ?_, rfl⟩
  constructor
  · rfl
  · rfl
  · exact sized.room
  · exact copied fits.1 sized.keysI8
  · rw [length_set, sized.keyScales]
  · exact copied fits.2 sized.valuesI8
  · rw [length_set, sized.valueScales]

/-- A layer takes a row that fits while it has room. -/
theorem steady : Steady (push quantizer) (Sized capacity numKvHeads headDim) len
    (fun now row => RowFits (numKvHeads * headDim) row ∧ now < capacity) (· + 1) where
  accepted := by
    intro layer row sized ⟨fits, room⟩
    have heads : ∀ head ∈ List.range layer.numKvHeads, ∀ state : QuantizedKvLayer Scalar,
        (state.Sized capacity numKvHeads headDim ∧ state.len = layer.len) →
          ∃ next, pushHead quantizer row.1 row.2 state head = .ok next ∧
            next.Sized capacity numKvHeads headDim ∧ next.len = layer.len := by
      intro head member state ⟨stateSized, same⟩
      rw [sized.heads] at member
      have pushed := @Sized.pushHead Scalar quantizer _ _ _ state stateSized (by rw [same]; exact room) row fits head
        (mem_range.mp member)
      rwa [same] at pushed
    obtain ⟨last, ran, lastSized, same⟩ := foldlM_keeps heads ⟨sized, rfl⟩
    refine ⟨{ last with len := last.len + 1 }, ?_, { lastSized with }, congrArg (· + 1) same⟩
    rw [sized.heads] at ran
    simp only [push, refuseIf, sized.heads, sized.dim, sized.room, fits.1, fits.2, Nat.not_le.mpr room, ne_eq,
      not_true_eq_false, if_false, ok_bind, ran]
    rfl
  refused := by
    intro layer row sized refused
    rw [push, refuseIf, refuseIf, refuseIf, sized.heads, sized.dim, sized.room]
    by_cases keys : row.1.length = numKvHeads * headDim
    · rw [if_neg (not_not_intro keys)]
      by_cases values : row.2.length = numKvHeads * headDim
      · rw [if_neg (not_not_intro values), if_pos (Nat.not_lt.mp fun room => refused ⟨⟨keys, values⟩, room⟩)]
        exact ⟨_, rfl⟩
      · rw [if_pos values]
        exact ⟨_, rfl⟩
    · rw [if_pos keys]
      exact ⟨_, rfl⟩
  moves := fun now => Nat.succ_ne_self now

end QuantizedKvLayer

namespace QuantizedKvCache

/-- All layers have stored the rows of the same tokens, one token at each position. -/
def InStep (quantizer : RowQuantizer Scalar) (fresh : QuantizedKvLayer Scalar) (cache : QuantizedKvCache Scalar) : Prop :=
  ∃ tokens, (∀ layer ∈ cache.layers, layer.len = tokens.length) ∧
    HoldsTokens (QuantizedKvLayer.push quantizer) fresh cache.layers tokens

/-- If the first layer has room for its row and the row fits, then all rows fit. -/
def Uniform (cache : QuantizedKvCache Scalar) (call : PushStep Scalar) : Prop :=
  call.allKeys.length = cache.numLayers → call.allValues.length = cache.numLayers →
    ∀ layer ∈ cache.layers.head?, layer.len < layer.capacity →
      ∀ first ∈ (call.allKeys.zip call.allValues).head?, RowFits (layer.numKvHeads * layer.headDim) first →
        ∀ row ∈ call.allKeys.zip call.allValues, RowFits (layer.numKvHeads * layer.headDim) row

/-- The layers of a cache that is in step. -/
structure Advanced (quantizer : RowQuantizer Scalar) (fresh : QuantizedKvLayer Scalar) (capacity numKvHeads headDim : Nat)
    (cache : QuantizedKvCache Scalar) (tokens : List (List (KvRow Scalar))) : Prop where
  count : cache.layers.length = cache.numLayers
  aligned : Aligned (QuantizedKvLayer.push quantizer) (QuantizedKvLayer.Sized capacity numKvHeads headDim)
    QuantizedKvLayer.len fresh cache.layers tokens.length tokens

variable {fresh : QuantizedKvLayer Scalar} {cache : QuantizedKvCache Scalar} {tokens : List (List (KvRow Scalar))}

theorem Advanced.uniform_iff (advanced : Advanced quantizer fresh capacity numKvHeads headDim cache tokens)
    {call : PushStep Scalar} (keys : call.allKeys.length = cache.numLayers)
    (values : call.allValues.length = cache.numLayers) :
    cache.Uniform call ↔ UniformRows (fun row => RowFits (numKvHeads * headDim) row ∧ tokens.length < capacity)
      (call.allKeys.zip call.allValues) := by
  constructor
  · intro uniform accepted row member
    have some : cache.layers ≠ [] := by
      intro empty
      rw [← advanced.count, empty] at keys
      rw [eq_nil_of_length_eq_zero keys] at member
      cases member
    obtain ⟨first, here⟩ : ∃ first, first ∈ (call.allKeys.zip call.allValues).head? :=
      ⟨_, head?_eq_some_head (ne_nil_of_mem member)⟩
    obtain ⟨fits, room⟩ := accepted first here
    obtain ⟨sized, len⟩ := advanced.aligned.fine _ (head_mem some)
    have all := uniform keys values _ (head?_eq_some_head some) (by rw [len, sized.room]; exact room) first here
      (by rw [sized.heads, sized.dim]; exact fits) row member
    rw [sized.heads, sized.dim] at all
    exact ⟨all, room⟩
  · intro uniform _ _ layer layerHere room first here fits row member
    obtain ⟨sized, len⟩ := advanced.aligned.fine layer (mem_of_mem_head? layerHere)
    rw [sized.heads, sized.dim] at fits ⊢
    rw [len, sized.room] at room
    refine (uniform (fun other here' => ?_) row member).1
    rw [Option.mem_unique here' here]
    exact ⟨fits, room⟩

theorem Advanced.step (advanced : Advanced quantizer fresh capacity numKvHeads headDim cache tokens)
    (call : PushStep Scalar) : (cache.Uniform call ∧
      (∃ tokens, Advanced quantizer fresh capacity numKvHeads headDim (pushStep quantizer cache call).2 tokens) ∧
      ∀ error, (pushStep quantizer cache call).1 = .error error → (pushStep quantizer cache call).2 = cache) ∨
    (¬ cache.Uniform call ∧ (∃ error, (pushStep quantizer cache call).1 = .error error) ∧
      (pushStep quantizer cache call).2 ≠ cache) := by
  rw [pushStep]
  by_cases keys : call.allKeys.length = cache.numLayers
  · by_cases values : call.allValues.length = cache.numLayers
    · rw [if_neg (not_not_intro keys), if_neg (not_not_intro values), advanced.uniform_iff keys values]
      have width : (call.allKeys.zip call.allValues).length = cache.layers.length := by
        rw [length_zip, keys, values, Nat.min_self, advanced.count]
      rcases advanced.aligned.pushAll QuantizedKvLayer.steady width with
        ⟨uniform, ⟨later, ran, length, aligned⟩ | ⟨error, ran⟩⟩ | ⟨broken, error, later, ran, changed⟩
      · rw [ran]
        refine Or.inl ⟨uniform, ⟨tokens ++ [call.allKeys.zip call.allValues], length.trans advanced.count, ?_⟩,
          fun _ failed => by cases failed⟩
        rw [length_append, length_singleton]
        exact aligned
      · rw [ran]
        exact Or.inl ⟨uniform, ⟨tokens, advanced⟩, fun _ _ => rfl⟩
      · rw [ran]
        exact Or.inr ⟨broken, ⟨error, rfl⟩, fun same => changed (congrArg QuantizedKvCache.layers same)⟩
    · rw [if_neg (not_not_intro keys), if_pos values]
      exact Or.inl ⟨fun _ same => absurd same values, ⟨tokens, advanced⟩, fun _ _ => rfl⟩
  · rw [if_pos keys]
    exact Or.inl ⟨fun same => absurd same keys, ⟨tokens, advanced⟩, fun _ _ => rfl⟩

theorem advanced_new [Zero Scalar] (numLayers : Nat) :
    Advanced quantizer (.new capacity numKvHeads headDim) capacity numKvHeads headDim
      (new numLayers capacity numKvHeads headDim) [] := by
  refine ⟨length_replicate, fun layer member => ?_, holdsTokens_replicate _ _⟩
  rw [eq_of_mem_replicate member]
  exact ⟨QuantizedKvLayer.sized_new, rfl⟩

/-- The layers advance together if and only if each call is uniform. -/
theorem pushStep_allOrNothing [Zero Scalar] (quantizer : RowQuantizer Scalar) (numLayers capacity numKvHeads headDim : Nat)
    (calls : List (PushStep Scalar)) :
    AllOrNothing (pushStep quantizer) (InStep quantizer (.new capacity numKvHeads headDim))
        (new numLayers capacity numKvHeads headDim) calls ↔
      Meets (effect (pushStep quantizer)) Uniform (new numLayers capacity numKvHeads headDim) calls := by
  refine @allOrNothing_iff _ _ _ (pushStep quantizer) (InStep quantizer (.new capacity numKvHeads headDim))
    (fun cache => ∃ tokens, Advanced quantizer (.new capacity numKvHeads headDim) capacity numKvHeads headDim cache tokens)
    Uniform ?_ ?_ ?_ _ ⟨[], advanced_new numLayers⟩ calls
  · intro cache ⟨tokens, advanced⟩
    exact ⟨tokens, fun layer member => (advanced.aligned.fine layer member).2, advanced.aligned.holds⟩
  · intro cache call ⟨tokens, advanced⟩ uniform
    rcases advanced.step call with ⟨_, kept⟩ | ⟨broken, _⟩
    · exact kept
    · exact absurd uniform broken
  · intro cache call ⟨tokens, advanced⟩ broken
    rcases advanced.step call with ⟨uniform, _⟩ | ⟨_, changed⟩
    · exact absurd uniform broken
    · exact changed

end QuantizedKvCache

end Quantized

section Sink

variable {config : AttentionSinkConfig} {numHeads headDim : Nat}

namespace AttentionSinkLayer

/-- A layer has the sinks and the recent slots of each head. -/
structure Sized (config : AttentionSinkConfig) (numHeads headDim : Nat) (layer : AttentionSinkLayer Scalar) : Prop where
  config : layer.config = config
  heads : layer.numHeads = numHeads
  dim : layer.headDim = headDim
  sinks : layer.sinks.length = numHeads
  recent : layer.recent.length = numHeads

theorem sized_new : (new config numHeads headDim : AttentionSinkLayer Scalar).Sized config numHeads headDim := by
  constructor
  · rfl
  · rfl
  · rfl
  · exact length_replicate
  · exact length_replicate

/-- The number of slots of the first head. -/
def firstLen (slots : List (List (SinkSlot Scalar))) : Nat := (slots.head?.map List.length).getD 0

/-- The slots of the first head decide how many tokens a layer counts. -/
def measure (layer : AttentionSinkLayer Scalar) : Nat × Nat × Nat :=
  (layer.totalTokens, firstLen layer.sinks, firstLen layer.recent)

/-- The slots of the first head after one more token. -/
def advanceSlots (config : AttentionSinkConfig) (total : Nat) (lens : Nat × Nat) : Nat × Nat :=
  if total < config.numSinkTokens then (lens.1 + 1, lens.2)
  else (lens.1, if config.windowSize ≤ lens.2 then lens.2 - 1 + 1 else lens.2 + 1)

def advance (config : AttentionSinkConfig) (numHeads : Nat) (now : Nat × Nat × Nat) : Nat × Nat × Nat :=
  (now.1 + 1, if numHeads = 0 then now.2 else advanceSlots config now.1 now.2)

theorem firstLen_set_succ (slots : List (List (SinkSlot Scalar))) (h : Nat) (changed : List (SinkSlot Scalar)) :
    firstLen (slots.set (h + 1) changed) = firstLen slots := by
  cases slots with
  | nil => rfl
  | cons first slots => rfl

theorem firstLen_set_zero {slots : List (List (SinkSlot Scalar))} (some : 0 < slots.length)
    (changed : List (SinkSlot Scalar)) : firstLen (slots.set 0 changed) = changed.length := by
  cases slots with
  | nil => exact absurd some (Nat.lt_irrefl 0)
  | cons first slots => rfl

theorem Sized.pushHead {layer : AttentionSinkLayer Scalar} (sized : layer.Sized config numHeads headDim)
    {row : KvRow Scalar} (fits : RowFits (numHeads * headDim) row) {h : Nat} (inside : h < numHeads) :
    ∃ next, pushHead row.1 row.2 layer h = .ok next ∧ next.Sized config numHeads headDim ∧
      next.totalTokens = layer.totalTokens ∧ (firstLen next.sinks, firstLen next.recent) =
        if h = 0 then advanceSlots config layer.totalTokens (firstLen layer.sinks, firstLen layer.recent)
        else (firstLen layer.sinks, firstLen layer.recent) := by
  have source := row_le inside headDim
  have read {elements : List Scalar} (full : elements.length = numHeads * headDim) :
      headSlice elements h headDim = .ok (slice elements (h * headDim) headDim) := by
    rw [headSlice, part_inside (Nat.le_add_right _ _) (by rw [full]; exact source), Nat.add_sub_cancel_left]
  have sinkAt : h < layer.sinks.length := by rwa [sized.sinks]
  have recentAt : h < layer.recent.length := by rwa [sized.recent]
  have firstSink (zero : h = 0) : firstLen layer.sinks = layer.sinks[h].length := by
    subst zero
    rw [firstLen, head?_eq_getElem?, getElem?_eq_getElem sinkAt]
    rfl
  have firstRecent (zero : h = 0) : firstLen layer.recent = layer.recent[h].length := by
    subst zero
    rw [firstLen, head?_eq_getElem?, getElem?_eq_getElem recentAt]
    rfl
  rw [AttentionSinkLayer.pushHead]
  simp only [sized.dim, read fits.1, read fits.2, ok_bind, sized.config, advanceSlots]
  by_cases isSink : layer.totalTokens < config.numSinkTokens
  · simp only [if_pos isSink, getAt_inside sinkAt, ok_bind]
    refine ⟨_, rfl, ⟨rfl, sized.heads, rfl, ?_, sized.recent⟩, rfl, ?_⟩
    · rw [length_set, sized.sinks]
    · cases h with
      | zero => rw [if_pos rfl, firstLen_set_zero sinkAt, length_append, firstSink rfl, length_singleton]
      | succ h => rw [if_neg (Nat.succ_ne_zero h), firstLen_set_succ]
  · simp only [if_neg isSink, getAt_inside recentAt, ok_bind]
    by_cases full : config.windowSize ≤ layer.recent[h].length
    · rw [if_pos full]
      refine ⟨_, rfl, ⟨rfl, sized.heads, rfl, sized.sinks, ?_⟩, rfl, ?_⟩
      · rw [length_set, sized.recent]
      · cases h with
        | zero =>
            change (firstLen layer.sinks, firstLen (layer.recent.set 0 _)) = _
            rw [if_pos rfl, firstRecent rfl, if_pos full, firstLen_set_zero recentAt, length_append,
              length_drop, length_singleton]
        | succ h =>
            change (firstLen layer.sinks, firstLen (layer.recent.set (h + 1) _)) = _
            rw [if_neg (Nat.succ_ne_zero h), firstLen_set_succ]
    · rw [if_neg full]
      refine ⟨_, rfl, ⟨rfl, sized.heads, rfl, sized.sinks, ?_⟩, rfl, ?_⟩
      · rw [length_set, sized.recent]
      · cases h with
        | zero =>
            rw [if_pos rfl, firstRecent rfl, if_neg full, firstLen_set_zero recentAt, length_append,
              length_singleton]
        | succ h => rw [if_neg (Nat.succ_ne_zero h), firstLen_set_succ]

/-- A layer takes each row that fits. -/
theorem steady : Steady (@push Scalar) (Sized config numHeads headDim) measure
    (fun _ row => RowFits (numHeads * headDim) row) (advance config numHeads) where
  accepted := by
    intro layer row sized fits
    have heads : ∃ last, (List.range numHeads).foldlM (pushHead row.1 row.2) layer = .ok last ∧
        last.Sized config numHeads headDim ∧ last.totalTokens = layer.totalTokens ∧
        (firstLen last.sinks, firstLen last.recent) = if numHeads = 0 then (firstLen layer.sinks, firstLen layer.recent)
          else advanceSlots config layer.totalTokens (firstLen layer.sinks, firstLen layer.recent) := by
      cases numHeads with
      | zero => exact ⟨layer, rfl, sized, rfl, rfl⟩
      | succ others =>
          obtain ⟨first, ran, firstSized, same, lens⟩ := sized.pushHead fits (Nat.succ_pos others)
          rw [range_succ_eq_map, foldlM_cons, ran, ok_bind, if_neg (Nat.succ_ne_zero others)]
          rw [if_pos rfl] at lens
          refine foldlM_keeps (fun h member state ⟨stateSized, stateSame, stateLens⟩ => ?_) ⟨firstSized, same, lens⟩
          obtain ⟨other, below, rfl⟩ := mem_map.mp member
          obtain ⟨next, pushed, nextSized, nextSame, nextLens⟩ := stateSized.pushHead fits
            (Nat.succ_lt_succ (mem_range.mp below))
          rw [if_neg (Nat.succ_ne_zero other)] at nextLens
          exact ⟨next, pushed, nextSized, nextSame.trans stateSame, nextLens.trans stateLens⟩
    obtain ⟨last, ran, lastSized, same, lens⟩ := heads
    refine ⟨{ last with totalTokens := last.totalTokens + 1 }, ?_, { lastSized with }, ?_⟩
    · simp only [push, refuseIf, sized.heads, sized.dim, fits.1, fits.2, ne_eq, not_true_eq_false, if_false, ok_bind,
        ran]
      rfl
    · rw [advance]
      exact Prod.ext (congrArg (· + 1) same) lens
  refused := by
    intro layer row sized refused
    rw [push, refuseIf, refuseIf, sized.heads, sized.dim]
    by_cases keys : row.1.length = numHeads * headDim
    · rw [if_neg (not_not_intro keys), if_pos fun values => refused ⟨keys, values⟩]
      exact ⟨_, rfl⟩
    · rw [if_pos keys]
      exact ⟨_, rfl⟩
  moves := fun now same => Nat.succ_ne_self now.1 (congrArg Prod.fst same)

end AttentionSinkLayer

namespace AttentionSinkCache

/-- All layers have taken the rows of the same tokens and hold the same number of them. -/
def InStep (fresh : AttentionSinkLayer Scalar) (cache : AttentionSinkCache Scalar) : Prop :=
  ∃ tokens, (∃ held, ∀ layer ∈ cache.layers, layer.totalTokens = tokens.length ∧ layer.cacheLen = held) ∧
    HoldsTokens AttentionSinkLayer.push fresh cache.layers tokens

/-- If the row of the first layer fits, then all rows fit. -/
def Uniform (cache : AttentionSinkCache Scalar) (call : PushStep Scalar) : Prop :=
  call.allKeys.length = cache.numLayers → call.allValues.length = cache.numLayers →
    ∀ layer ∈ cache.layers.head?,
      ∀ first ∈ (call.allKeys.zip call.allValues).head?, RowFits (layer.numHeads * layer.headDim) first →
        ∀ row ∈ call.allKeys.zip call.allValues, RowFits (layer.numHeads * layer.headDim) row

/-- The layers of a cache that is in step. -/
structure Advanced (fresh : AttentionSinkLayer Scalar) (config : AttentionSinkConfig) (numHeads headDim : Nat)
    (cache : AttentionSinkCache Scalar) (now : Nat × Nat × Nat) (tokens : List (List (KvRow Scalar))) : Prop where
  count : cache.layers.length = cache.numLayers
  total : now.1 = tokens.length
  aligned : Aligned AttentionSinkLayer.push (AttentionSinkLayer.Sized config numHeads headDim)
    AttentionSinkLayer.measure fresh cache.layers now tokens

variable {fresh : AttentionSinkLayer Scalar} {cache : AttentionSinkCache Scalar} {now : Nat × Nat × Nat}
  {tokens : List (List (KvRow Scalar))}

theorem Advanced.uniform_iff (advanced : Advanced fresh config numHeads headDim cache now tokens)
    {call : PushStep Scalar} (keys : call.allKeys.length = cache.numLayers)
    (values : call.allValues.length = cache.numLayers) :
    cache.Uniform call ↔ UniformRows (RowFits (numHeads * headDim)) (call.allKeys.zip call.allValues) := by
  constructor
  · intro uniform accepted row member
    have some : cache.layers ≠ [] := by
      intro empty
      rw [← advanced.count, empty] at keys
      rw [eq_nil_of_length_eq_zero keys] at member
      cases member
    obtain ⟨first, here⟩ : ∃ first, first ∈ (call.allKeys.zip call.allValues).head? :=
      ⟨_, head?_eq_some_head (ne_nil_of_mem member)⟩
    have sized := (advanced.aligned.fine _ (head_mem some)).1
    have all := uniform keys values _ (head?_eq_some_head some) first here
      (by rw [sized.heads, sized.dim]; exact accepted first here) row member
    rwa [sized.heads, sized.dim] at all
  · intro uniform _ _ layer layerHere first here fits row member
    have sized := (advanced.aligned.fine layer (mem_of_mem_head? layerHere)).1
    rw [sized.heads, sized.dim] at fits ⊢
    refine uniform (fun other here' => ?_) row member
    rwa [Option.mem_unique here' here]

theorem Advanced.step (advanced : Advanced fresh config numHeads headDim cache now tokens) (call : PushStep Scalar) :
    (cache.Uniform call ∧ (∃ now tokens, Advanced fresh config numHeads headDim (pushStep cache call).2 now tokens) ∧
      ∀ error, (pushStep cache call).1 = .error error → (pushStep cache call).2 = cache) ∨
    (¬ cache.Uniform call ∧ (∃ error, (pushStep cache call).1 = .error error) ∧ (pushStep cache call).2 ≠ cache) := by
  rw [pushStep]
  by_cases keys : call.allKeys.length = cache.numLayers
  · by_cases values : call.allValues.length = cache.numLayers
    · rw [if_neg (not_not_intro keys), if_neg (not_not_intro values), advanced.uniform_iff keys values]
      have width : (call.allKeys.zip call.allValues).length = cache.layers.length := by
        rw [length_zip, keys, values, Nat.min_self, advanced.count]
      rcases advanced.aligned.pushAll AttentionSinkLayer.steady width with
        ⟨uniform, ⟨later, ran, length, aligned⟩ | ⟨error, ran⟩⟩ | ⟨broken, error, later, ran, changed⟩
      · rw [ran]
        refine Or.inl ⟨uniform, ⟨_, tokens ++ [call.allKeys.zip call.allValues], length.trans advanced.count, ?_, aligned⟩,
          fun _ failed => by cases failed⟩
        rw [length_append, length_singleton, ← advanced.total]
        rfl
      · rw [ran]
        exact Or.inl ⟨uniform, ⟨now, tokens, advanced⟩, fun _ _ => rfl⟩
      · rw [ran]
        exact Or.inr ⟨broken, ⟨error, rfl⟩, fun same => changed (congrArg AttentionSinkCache.layers same)⟩
    · rw [if_neg (not_not_intro keys), if_pos values]
      exact Or.inl ⟨fun _ same => absurd same values, ⟨now, tokens, advanced⟩, fun _ _ => rfl⟩
  · rw [if_pos keys]
    exact Or.inl ⟨fun same => absurd same keys, ⟨now, tokens, advanced⟩, fun _ _ => rfl⟩

/-- The layers advance together if and only if each call is uniform. -/
theorem pushStep_allOrNothing (config : AttentionSinkConfig) (numLayers numHeads headDim : Nat)
    (calls : List (PushStep Scalar)) :
    AllOrNothing pushStep (InStep (.new config numHeads headDim)) (new numLayers numHeads headDim config) calls ↔
      Meets (effect pushStep) Uniform (new numLayers numHeads headDim config) calls := by
  have first : Advanced (AttentionSinkLayer.new config numHeads headDim : AttentionSinkLayer Scalar) config numHeads headDim
      (new numLayers numHeads headDim config)
      (AttentionSinkLayer.new config numHeads headDim : AttentionSinkLayer Scalar).measure [] := by
    refine ⟨length_replicate, rfl, fun layer member => ?_, holdsTokens_replicate _ _⟩
    rw [eq_of_mem_replicate member]
    exact ⟨AttentionSinkLayer.sized_new, rfl⟩
  refine @allOrNothing_iff _ _ _ pushStep (InStep (.new config numHeads headDim))
    (fun cache => ∃ now tokens, Advanced (.new config numHeads headDim) config numHeads headDim cache now tokens)
    Uniform ?_ ?_ ?_ _ ⟨_, [], first⟩ calls
  · intro cache ⟨now, tokens, advanced⟩
    refine ⟨tokens, ⟨now.2.1 + now.2.2, fun layer member => ?_⟩, advanced.aligned.holds⟩
    have same := (advanced.aligned.fine layer member).2
    rw [← advanced.total, ← same]
    exact ⟨rfl, rfl⟩
  · intro cache call ⟨now, tokens, advanced⟩ uniform
    rcases advanced.step call with ⟨_, kept⟩ | ⟨broken, _⟩
    · exact kept
    · exact absurd uniform broken
  · intro cache call ⟨now, tokens, advanced⟩ broken
    rcases advanced.step call with ⟨uniform, _⟩ | ⟨_, changed⟩
    · exact absurd uniform broken
    · exact changed

end AttentionSinkCache

end Sink

/-- In both caches the layers advance together if and only if each call is uniform. -/
theorem layers_advance_together [Zero Scalar] (quantizer : RowQuantizer Scalar) (config : AttentionSinkConfig)
    (numLayers capacity numHeads headDim : Nat) (calls : List (PushStep Scalar)) :
    (AllOrNothing (QuantizedKvCache.pushStep quantizer) (QuantizedKvCache.InStep quantizer (.new capacity numHeads headDim))
        (.new numLayers capacity numHeads headDim) calls ↔
      Meets (effect (QuantizedKvCache.pushStep quantizer)) QuantizedKvCache.Uniform
        (.new numLayers capacity numHeads headDim) calls) ∧
    (AllOrNothing AttentionSinkCache.pushStep (AttentionSinkCache.InStep (.new config numHeads headDim))
        (.new numLayers numHeads headDim config) calls ↔
      Meets (effect AttentionSinkCache.pushStep) AttentionSinkCache.Uniform
        (.new numLayers numHeads headDim config) calls) :=
  ⟨QuantizedKvCache.pushStep_allOrNothing quantizer numLayers capacity numHeads headDim calls,
    AttentionSinkCache.pushStep_allOrNothing config numLayers numHeads headDim calls⟩

/-- The row of the second layer is too short: the first layer keeps a token that the call refused. -/
theorem shortRow_changes_layers : ¬ AllOrNothing (@QuantizedKvCache.pushStep Int ⟨1, fun _ => 1, fun _ _ => 0⟩)
        (QuantizedKvCache.InStep ⟨1, fun _ => 1, fun _ _ => 0⟩ (.new 1 1 1)) (.new 2 1 1 1) [⟨[[5], []], [[6], []]⟩] ∧
    ¬ AllOrNothing AttentionSinkCache.pushStep (AttentionSinkCache.InStep (.new ⟨1, 1⟩ 1 1))
        (.new 2 1 1 ⟨1, 1⟩) [⟨[[(5 : Int)], []], [[6], []]⟩] := by
  constructor
  · intro whole
    have kept := (whole [] _ rfl _ rfl).2 _ [] (.error (.shapeMismatch 1 0)) rfl rfl
    have len := congrArg (fun cache => cache.layers.map QuantizedKvLayer.len) kept
    revert len
    decide
  · intro whole
    have kept := (whole [] _ rfl _ rfl).2 _ [] (.error (.shapeMismatch 1 0)) rfl rfl
    have len := congrArg (fun cache => cache.layers.map AttentionSinkLayer.totalTokens) kept
    revert len
    decide

end Pictor.LayeredCaches
