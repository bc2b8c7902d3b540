import Pictor.Construction.Cache.KvCache
import Pictor.Library.RowMajor

namespace Pictor.KvStore
open Slice Tiling RowMajor List

variable {Element : Type} {numLayers numKvHeads headDim maxSeqLen : Nat}

/-- A layer, a head and a position of a cache. -/
@[ext] structure Place (numLayers numKvHeads maxSeqLen : Nat) where
  layer : Fin numLayers
  head : Fin numKvHeads
  pos : Fin maxSeqLen
  deriving DecidableEq

/-- The places of a cache have numbers of their own. -/
def Place.number (place : Place numLayers numKvHeads maxSeqLen) : Nat :=
  (place.layer * numKvHeads + place.head) * maxSeqLen + place.pos

theorem Place.number_lt (place : Place numLayers numKvHeads maxSeqLen) :
    place.number < numLayers * numKvHeads * maxSeqLen :=
  place_lt (place_lt place.layer.isLt place.head.isLt) place.pos.isLt

theorem Place.number_inj {place other : Place numLayers numKvHeads maxSeqLen} :
    place.number = other.number ↔ place = other := by
  rw [Place.number, Place.number, place_inj place.pos.isLt other.pos.isLt,
    place_inj place.head.isLt other.head.isLt]
  constructor
  · rintro ⟨⟨layer, head⟩, pos⟩
    exact Place.ext (Fin.ext layer) (Fin.ext head) (Fin.ext pos)
  · rintro rfl
    exact ⟨⟨rfl, rfl⟩, rfl⟩

namespace KvCache

/-- Every cache has arrays of the size of its shape. -/
structure Shaped (numLayers numKvHeads headDim maxSeqLen : Nat) (cache : KvCache Element) : Prop where
  layers : cache.numLayers = numLayers
  heads : cache.numKvHeads = numKvHeads
  dim : cache.headDim = headDim
  positions : cache.maxSeqLen = maxSeqLen
  keys : cache.keys.length = numLayers * numKvHeads * maxSeqLen * headDim
  values : cache.values.length = numLayers * numKvHeads * maxSeqLen * headDim

/-- The vector at a place of one of the arrays. -/
def rowAt (headDim : Nat) (array : List Element) (place : Place numLayers numKvHeads maxSeqLen) : List Element :=
  slice array (place.number * headDim) headDim

variable {cache : KvCache Element} {array : List Element} {place other : Place numLayers numKvHeads maxSeqLen}

theorem shaped_new [Zero Element] : Shaped numLayers numKvHeads headDim maxSeqLen
    (KvCache.new numLayers numKvHeads headDim maxSeqLen : KvCache Element) := by
  constructor
  · rfl
  · rfl
  · rfl
  · rfl
  · rw [KvCache.new, length_replicate]
  · rw [KvCache.new, length_replicate]

theorem Shaped.offset (shaped : Shaped numLayers numKvHeads headDim maxSeqLen cache)
    (place : Place numLayers numKvHeads maxSeqLen) :
    cache.cacheOffset place.layer place.head place.pos = place.number * headDim := by
  rw [cacheOffset, shaped.heads, shaped.positions, shaped.dim, Place.number]

theorem place_fits (full : array.length = numLayers * numKvHeads * maxSeqLen * headDim)
    (place : Place numLayers numKvHeads maxSeqLen) : place.number * headDim + headDim ≤ array.length := by
  rw [full, ← Nat.succ_mul]
  exact Nat.mul_le_mul_right headDim place.number_lt

theorem length_rowAt (full : array.length = numLayers * numKvHeads * maxSeqLen * headDim)
    (place : Place numLayers numKvHeads maxSeqLen) : (rowAt headDim array place).length = headDim := by
  have fits := place_fits full place
  rw [rowAt, slice, length_take, length_drop]
  omega

variable (shaped : Shaped numLayers numKvHeads headDim maxSeqLen cache)
include shaped

variable (full : array.length = numLayers * numKvHeads * maxSeqLen * headDim)
include full

/-- A store changes the vector of its place only. -/
theorem Shaped.store (place : Place numLayers numKvHeads maxSeqLen) {vector : List Element}
    (sized : vector.length = headDim) :
    ∃ stored, cache.store place.layer place.head place.pos vector array = .ok stored ∧
      stored.length = numLayers * numKvHeads * maxSeqLen * headDim ∧
      ∀ other, rowAt headDim stored other = if other = place then vector else rowAt headDim array other := by
  have fits := place_fits full place
  have inside : place.number * headDim + vector.length ≤ array.length := by rwa [sized]
  refine ⟨copyFromSlice array (place.number * headDim) vector, ?_, ?_, fun other => ?_⟩
  · rw [KvCache.store, shaped.offset, shaped.dim]
    exact onPart_copyOver (by rw [sized]) fits
  · rw [length_copyFromSlice inside, full]
  · by_cases same : other = place
    · rw [if_pos same, same, rowAt, slice_copyFromSlice inside sized]
    · rw [if_neg same, rowAt, rowAt, slice_copyFromSlice_apart inside]
      rw [sized]
      exact cells_apart fun number => same (Place.number_inj.mp number)

theorem Shaped.withKeys : Shaped numLayers numKvHeads headDim maxSeqLen { cache with keys := array } :=
  { shaped with keys := full }

theorem Shaped.withValues : Shaped numLayers numKvHeads headDim maxSeqLen { cache with values := array } :=
  { shaped with values := full }

/-- A read returns the vectors of its positions one after another. -/
theorem Shaped.read (layer : Fin numLayers) (head : Fin numKvHeads) {seqLen : Nat} (short : seqLen ≤ maxSeqLen)
    {rows : Nat → List Element}
    (found : ∀ pos, ∀ inside : pos < seqLen, rowAt headDim array ⟨layer, head, ⟨pos, Nat.lt_of_lt_of_le inside short⟩⟩ = rows pos) :
    cache.read array layer head seqLen = .ok ((List.range seqLen).map rows).flatten := by
  have last : ((layer * numKvHeads + head) * maxSeqLen + 0) * headDim + seqLen * headDim ≤
      numLayers * numKvHeads * maxSeqLen * headDim := by
    rw [← Nat.add_mul]
    apply Nat.mul_le_mul_right
    have rows := row_le (place_lt layer.isLt head.isLt) maxSeqLen
    omega
  rw [KvCache.read, cacheOffset, shaped.heads, shaped.positions, shaped.dim,
    part_inside (Nat.le_add_right _ _) (by rwa [full]), Nat.add_sub_cancel_left]
  congr 1
  rw [slice, ← flatten_slices]
  congr 1
  refine map_congr_left fun pos member => ?_
  have below := mem_range.mp member
  rw [← found pos below, rowAt, slice, slice, drop_drop, ← Nat.add_mul]
  rfl

omit shaped full

section Blocks

variable {layer : Fin numLayers} {startPos blockSize : Nat}

/-- The loop over a block writes the rows of its positions before the end. -/
theorem Shaped.paints_forBlock (shaped : Shaped numLayers numKvHeads headDim maxSeqLen cache) {length : Nat}
    {value : Nat → Element} {row : Nat → Nat → List Element → Except Panic (List Element)} {target : Nat → Nat → Nat}
    (rows : ∀ (head : Fin numKvHeads) (off : Fin blockSize) (inside : startPos + off < maxSeqLen),
      Paints length (Set.Ico (target head off) (target head off + headDim)) value
        (row ((⟨layer, head, ⟨startPos + off, inside⟩⟩ : Place _ _ _).number * headDim)
          ((head * blockSize + off) * headDim))) :
    Paints length {index | ∃ head < numKvHeads, ∃ off < blockSize, startPos + off < maxSeqLen ∧
        target head off ≤ index ∧ index < target head off + headDim} value
      (cache.forBlock layer startPos blockSize row) := by
  rw [Paints]
  simp only [forBlock, shaped.heads, shaped.positions, shaped.dim, cacheOffset]
  refine Paints.union fun head below => ?_
  refine Paints.union fun off below' => ?_
  by_cases inside : startPos + off < maxSeqLen
  · simp only [Nat.not_le.mpr inside, if_false, inside, true_and]
    exact rows ⟨head, below⟩ ⟨off, below'⟩ inside
  · simp only [Nat.not_lt.mp inside, if_true, inside, false_and]
    exact Paints.pure

variable {source block : List Element}

/-- The copy of a row writes it. -/
theorem Shaped.paints_copyRow (shaped : Shaped numLayers numKvHeads headDim maxSeqLen cache) {src dst length : Nat}
    {value : Nat → Element} (fits : src + headDim ≤ source.length) (fits' : dst + headDim ≤ length)
    (values : ∀ col < headDim, source[src + col]? = some (value (dst + col))) :
    Paints length (Set.Ico dst (dst + headDim)) value (cache.copyRow source src dst) := by
  have copied : Paints (dst + headDim - dst) Set.univ (fun col => value (dst + col))
      (copyOver Panic.lengthMismatch (slice source src headDim)) := by
    rw [Nat.add_sub_cancel_left]
    refine Paints.copyOver ?_ fun col below => ?_
    · exact length_slice (by omega)
    · rw [getElem?_slice, if_pos below, values col below]
  rw [Paints]
  simp only [copyRow, shaped.dim]
  rw [part_inside (Nat.le_add_right _ _) fits, Nat.add_sub_cancel_left]
  exact copied.part (Nat.le_add_right _ _) fits'

/-- The rows of a block of one array are in the order of the heads. -/
structure IsBlock (array : List Element) (headDim maxSeqLen : Nat) (layer : Fin numLayers) (numKvHeads startPos blockSize : Nat)
    (block : List Element) : Prop where
  length : block.length = numKvHeads * blockSize * headDim
  rows : ∀ (head : Fin numKvHeads) (off : Fin blockSize) (inside : startPos + off < maxSeqLen),
    slice block ((head * blockSize + off) * headDim) headDim =
      rowAt headDim array (⟨layer, head, ⟨startPos + off, inside⟩⟩ : Place _ _ _)

theorem block_fits (full : block.length = numKvHeads * blockSize * headDim) (head : Fin numKvHeads)
    (off : Fin blockSize) : (head * blockSize + off) * headDim + headDim ≤ block.length := by
  rw [full, ← Nat.succ_mul]
  exact Nat.mul_le_mul_right headDim (place_lt head.isLt off.isLt)

theorem Shaped.extract [Zero Element] (shaped : Shaped numLayers numKvHeads headDim maxSeqLen cache)
    (full : array.length = numLayers * numKvHeads * maxSeqLen * headDim) :
    ∃ block, cache.extract array layer startPos blockSize = .ok block ∧
      IsBlock array headDim maxSeqLen layer numKvHeads startPos blockSize block := by
  -- An element of the block names its head, its position and its column.
  let value index :=
    array.getD (((layer * numKvHeads + index / headDim / blockSize) * maxSeqLen +
      (startPos + index / headDim % blockSize)) * headDim + index % headDim) 0
  have named (head : Fin numKvHeads) (off : Fin blockSize) (col : Nat) (below : col < headDim) :
      value ((head * blockSize + off) * headDim + col) =
        array.getD (((layer * numKvHeads + head) * maxSeqLen + (startPos + off)) * headDim + col) 0 := by
    have outer := (Nat.div_mod_unique (Nat.zero_lt_of_lt below)).mpr
      ⟨Nat.add_comm col (headDim * (head * blockSize + off)), below⟩
    have inner := (Nat.div_mod_unique (Nat.zero_lt_of_lt off.isLt)).mpr
      ⟨Nat.add_comm off (blockSize * head), off.isLt⟩
    rw [Nat.mul_comm headDim] at outer
    rw [Nat.mul_comm blockSize] at inner
    simp only [value, outer.1, outer.2, inner.1, inner.2]
  have zeros : (List.replicate (numKvHeads * blockSize * headDim) (0 : Element)).length =
      numKvHeads * blockSize * headDim := length_replicate
  have entry (head : Fin numKvHeads) (off : Fin blockSize) (inside : startPos + off < maxSeqLen) (col : Nat)
      (below : col < headDim) :
      array[(⟨layer, head, ⟨startPos + off, inside⟩⟩ : Place _ _ _).number * headDim + col]? =
        some (value ((head * blockSize + off) * headDim + col)) := by
    have fits := place_fits full ⟨layer, head, ⟨startPos + off, inside⟩⟩
    rw [named head off col below]
    exact getElem?_getD 0 (by omega)
  have painted := @Shaped.paints_forBlock _ _ _ _ _ _ layer startPos blockSize shaped
    (numKvHeads * blockSize * headDim) value (fun src dst => cache.copyRow array src dst)
    (fun head off => (head * blockSize + off) * headDim) (fun head off inside => by
      refine shaped.paints_copyRow (place_fits full _) ?_ (entry head off inside)
      have fits := block_fits zeros head off
      rwa [zeros] at fits)
  rw [KvCache.extract, shaped.heads, shaped.dim, painted _ zeros]
  refine ⟨_, rfl, ?_, fun head off inside => ?_⟩
  · rw [length_paint, zeros]
  · have fits := block_fits zeros head off
    refine slice_paint_inside (length_rowAt full _) fits fun col below => ⟨?_, ?_⟩
    · exact ⟨head, head.isLt, off, off.isLt, inside, Nat.le_add_right _ _, Nat.add_lt_add_left below _⟩
    · rw [rowAt, getElem?_slice, if_pos below, entry head off inside col below]

/-- The injection of a block copies its rows and changes no other row. -/
theorem Shaped.inject [Zero Element] (shaped : Shaped numLayers numKvHeads headDim maxSeqLen cache)
    (full : array.length = numLayers * numKvHeads * maxSeqLen * headDim)
    (full' : source.length = numLayers * numKvHeads * maxSeqLen * headDim)
    (isBlock : IsBlock source headDim maxSeqLen layer numKvHeads startPos blockSize block) :
    ∃ restored, cache.inject block layer startPos blockSize array = .ok restored ∧
      restored.length = numLayers * numKvHeads * maxSeqLen * headDim ∧
      ∀ place : Place numLayers numKvHeads maxSeqLen, rowAt headDim restored place =
        if place.layer = layer ∧ startPos ≤ place.pos ∧ place.pos < startPos + blockSize then
          rowAt headDim source place
        else rowAt headDim array place := by
  have painted := @Shaped.paints_forBlock _ _ _ _ _ _ layer startPos blockSize shaped
    (numLayers * numKvHeads * maxSeqLen * headDim) (fun index => source.getD index 0)
    (fun dst src => cache.copyRow block src dst)
    (fun head off => ((layer * numKvHeads + head) * maxSeqLen + (startPos + off)) * headDim)
    (fun head off inside => by
      have fits := place_fits full' ⟨layer, head, ⟨startPos + off, inside⟩⟩
      refine shaped.paints_copyRow (block_fits isBlock.length head off) (by rw [← full']; exact fits)
        fun col below => ?_
      have row := congrArg (·[col]?) (isBlock.rows head off inside)
      simp only [rowAt, getElem?_slice, if_pos below] at row
      rw [row]
      exact getElem?_getD 0 (by omega))
  refine ⟨_, painted array full, ?_, fun place => ?_⟩
  · rw [length_paint, full]
  · have fits := place_fits full place
    by_cases inside : place.layer = layer ∧ startPos ≤ place.pos ∧ place.pos < startPos + blockSize
    · rw [if_pos inside]
      have fits' := place_fits full' place
      refine slice_paint_inside (length_rowAt full' place) fits fun col below => ⟨?_, ?_⟩
      · refine ⟨place.head, place.head.isLt, place.pos - startPos, by omega, by omega, ?_⟩
        rw [Nat.add_sub_cancel' inside.2.1, ← inside.1]
        exact ⟨Nat.le_add_right _ _, Nat.add_lt_add_left below _⟩
      · rw [rowAt, getElem?_slice, if_pos below]
        exact getElem?_getD 0 (by omega)
    · rw [if_neg inside]
      refine slice_paint_outside fun col below ⟨head, headBelow, off, offBelow, posBelow, start, stop⟩ => ?_
      have same := cell_of_place start stop below
      change (⟨layer, ⟨head, headBelow⟩, ⟨startPos + off, posBelow⟩⟩ : Place _ _ _).number = place.number at same
      rw [Place.number_inj] at same
      rw [← same] at inside
      exact inside ⟨rfl, Nat.le_add_right _ _, Nat.add_lt_add_left offBelow _⟩

end Blocks

end KvCache

end Pictor.KvStore
