import Pictor.Construction.Kernels.Products
import Pictor.Library.RowMajor
import Pictor.Library.Scatter

namespace Pictor.Kernels
open RowMajor Scatter Slice Tiling List

section Order

variable {nRows blocksPerRow : Nat}

/-- The places of the blocks of a tile, one block of all its rows after another. -/
def tileOrder (blocksPerRow tileStart tileRows : Nat) : List Nat :=
  ((List.range blocksPerRow).map fun bi =>
    (List.range tileRows).map fun rowOffset => (tileStart + rowOffset) * blocksPerRow + bi).flatten

/-- The places of all blocks from a tile on. -/
def packOrder (nRows blocksPerRow tileStart : Nat) : List Nat :=
  if tileStart < nRows then
    let tileRows := min (nRows - tileStart) (tileSize nRows)
    tileOrder blocksPerRow tileStart tileRows ++ packOrder nRows blocksPerRow (tileStart + tileRows)
  else
    []
termination_by nRows - tileStart
decreasing_by
  simp only [tileSize]
  omega

/-- The place of a block in the tiled layout. -/
def tiledPlace (nRows blocksPerRow row bi : Nat) : Nat :=
  let tileStart := row / 32 * 32
  tileStart * blocksPerRow + (bi * min (nRows - tileStart) 32 + (row - tileStart))

theorem even_tile (blocksPerRow tileStart tileRows : Nat) : ∀ places ∈ (List.range blocksPerRow).map fun bi =>
      (List.range tileRows).map fun rowOffset => (tileStart + rowOffset) * blocksPerRow + bi,
    places.length = tileRows := by
  intro places member
  obtain ⟨bi, _, rfl⟩ := mem_map.mp member
  rw [length_map, length_range]

theorem length_tileOrder (blocksPerRow tileStart tileRows : Nat) :
    (tileOrder blocksPerRow tileStart tileRows).length = blocksPerRow * tileRows := by
  rw [tileOrder, length_flatten (even_tile _ _ _), length_map, length_range]

theorem getElem?_tileOrder {tileStart tileRows bi rowOffset : Nat} (inside : bi < blocksPerRow)
    (within : rowOffset < tileRows) : (tileOrder blocksPerRow tileStart tileRows)[bi * tileRows + rowOffset]? =
      some ((tileStart + rowOffset) * blocksPerRow + bi) := by
  have cut := @slice_flatten Nat tileRows _ (even_tile blocksPerRow tileStart tileRows) bi
    (by rwa [length_map, length_range])
  have here := congrArg (·[rowOffset]?) cut
  simp only [getElem?_slice, if_pos within, getElem_map, getElem_range, getElem?_map,
    getElem?_range within, Option.map_some] at here
  exact here

theorem length_packOrder (nRows blocksPerRow tileStart : Nat) :
    (packOrder nRows blocksPerRow tileStart).length = (nRows - tileStart) * blocksPerRow := by
  fun_induction packOrder nRows blocksPerRow tileStart with
  | case1 tileStart more tileRows ih =>
      rw [length_append, length_tileOrder, ih, Nat.mul_comm blocksPerRow, ← Nat.add_mul]
      congr 1
      have := Nat.min_le_left (nRows - tileStart) (tileSize nRows)
      omega
  | case2 tileStart done => rw [Nat.sub_eq_zero_of_le (Nat.le_of_not_lt done), Nat.zero_mul, length_nil]

/-- The order of the tiles is the tiled layout. -/
theorem getElem?_packOrder {tileStart row bi : Nat} (tile : tileStart % 32 = 0) (before : tileStart ≤ row)
    (inside : row < nRows) (within : bi < blocksPerRow) :
    (packOrder nRows blocksPerRow tileStart)[tiledPlace nRows blocksPerRow row bi - tileStart * blocksPerRow]? =
      some (row * blocksPerRow + bi) := by
  fun_induction packOrder nRows blocksPerRow tileStart with
  | case1 tileStart more tileRows ih =>
      have height : tileRows = min (nRows - tileStart) 32 := by
        simp only [tileRows, tileSize]
        omega
      by_cases here : row < tileStart + tileRows
      · have start : row / 32 * 32 = tileStart := by omega
        have offset : row - tileStart < tileRows := by omega
        have room := @place_lt blocksPerRow tileRows bi (row - tileStart) within offset
        rw [tiledPlace, start, Nat.add_sub_cancel_left, ← height,
          getElem?_append_left (by rwa [length_tileOrder]), getElem?_tileOrder within offset,
          Nat.add_sub_cancel' before]
      · have full : tileRows = 32 := by omega
        have ahead : (tileStart + tileRows) * blocksPerRow ≤ tiledPlace nRows blocksPerRow row bi := by
          have later : tileStart + tileRows ≤ row / 32 * 32 := by omega
          exact Nat.le_trans (Nat.mul_le_mul_right _ later) (Nat.le_add_right _ _)
        rw [Nat.add_mul] at ahead
        have rest := ih (by omega) (by omega)
        rw [getElem?_append_right (by rw [length_tileOrder, Nat.mul_comm blocksPerRow]; omega), length_tileOrder,
          Nat.sub_sub, Nat.mul_comm blocksPerRow, ← Nat.add_mul]
        exact rest
  | case2 tileStart done => omega

/-- The order contains every place once. -/
theorem packOrder_perm (nRows blocksPerRow : Nat) :
    (packOrder nRows blocksPerRow 0).Perm (List.range (nRows * blocksPerRow)) := by
  apply all_places
  · intro place inside
    have positive : 0 < blocksPerRow := Nat.pos_of_mul_pos_left (Nat.zero_lt_of_lt inside)
    have row : place / blocksPerRow < nRows := Nat.div_lt_of_lt_mul (by rwa [Nat.mul_comm])
    have here := getElem?_packOrder (Nat.zero_mod 32) (Nat.zero_le _) row (Nat.mod_lt place positive)
    rw [Nat.div_add_mod'] at here
    exact mem_of_getElem? here
  · rw [length_packOrder, Nat.sub_zero]

end Order

section Loops

variable {Block : Type} {nRows blocksPerRow : Nat}

/-- Two nested loops run over the places of a tile. -/
theorem foldlM_tile {State : Type} (step : State → Nat → KernelResult State) (tileStart tileRows : Nat) (state : State) :
    ((List.range blocksPerRow).foldlM (fun state bi => (List.range tileRows).foldlM (fun state rowOffset =>
      step state ((tileStart + rowOffset) * blocksPerRow + bi)) state) state) =
        (tileOrder blocksPerRow tileStart tileRows).foldlM step state := by
  rw [tileOrder]
  induction List.range blocksPerRow generalizing state with
  | nil => rfl
  | cons bi rest ih =>
      rw [foldlM_cons, map_cons, flatten_cons, foldlM_append, foldlM_map]
      congr 1
      funext state
      exact ih state

/-- A packed block is the one of its place. -/
def emit (blocks packed : List Block) (place : Nat) : KernelResult (List Block) := do
  let block ← getAt .panic place blocks
  return packed ++ [block]

/-- The next packed block goes back to its place. -/
def putBack (packed : List Block) (state : Nat × List Block) (place : Nat) : KernelResult (Nat × List Block) := do
  let block ← getAt .panic state.1 packed
  let unpacked ← setAt .panic place block state.2
  return (state.1 + 1, unpacked)

theorem packTiles_eq (blocks : List Block) (tileStart : Nat) (packed : List Block) :
    packTiles blocks nRows blocksPerRow tileStart packed =
      (packOrder nRows blocksPerRow tileStart).foldlM (emit blocks) packed := by
  fun_induction packTiles blocks nRows blocksPerRow tileStart packed with
  | case1 tileStart packed more tileRows ih =>
      rw [packOrder, if_pos more, foldlM_append]
      exact congrArg₂ bind (foldlM_tile (emit blocks) tileStart tileRows packed) (funext ih)
  | case2 tileStart packed done => rw [packOrder, if_neg done]; rfl

theorem unpackTiles_eq (packed : List Block) (tileStart : Nat) (state : Nat × List Block) :
    unpackTiles packed nRows blocksPerRow tileStart state =
      (packOrder nRows blocksPerRow tileStart).foldlM (putBack packed) state := by
  fun_induction unpackTiles packed nRows blocksPerRow tileStart state with
  | case1 tileStart state more tileRows ih =>
      rw [packOrder, if_pos more, foldlM_append]
      exact congrArg₂ bind (foldlM_tile (putBack packed) tileStart tileRows state) (funext ih)
  | case2 tileStart state done => rw [packOrder, if_neg done]; rfl

theorem foldlM_gather {places : List Nat} {blocks : List Block} (inside : ∀ place ∈ places, place < blocks.length)
    (packed : List Block) : places.foldlM (emit blocks) packed = .ok (packed ++ gather places blocks) := by
  induction places generalizing packed with
  | nil => rw [gather, filterMap_nil, append_nil]; rfl
  | cons place places ih =>
      have here := inside place mem_cons_self
      rw [foldlM_cons, emit, getAt_inside here, gather, filterMap_cons_some (getElem?_eq_getElem here)]
      change places.foldlM _ (packed ++ [blocks[place]]) = _
      rw [ih fun other member => inside other (mem_cons_of_mem _ member), append_assoc]
      rfl

theorem foldlM_scatter {places : List Nat} {packed unpacked : List Block} {packedIdx : Nat}
    (inside : ∀ place ∈ places, place < unpacked.length) (enough : packedIdx + places.length ≤ packed.length) :
    places.foldlM (putBack packed) (packedIdx, unpacked) =
      .ok (packedIdx + places.length, scatter (places.zip (packed.drop packedIdx)) unpacked) := by
  induction places generalizing packedIdx unpacked with
  | nil => rfl
  | cons place places ih =>
      rw [length_cons] at enough
      have read : packedIdx < packed.length := by omega
      have here := inside place mem_cons_self
      have rest : ∀ other ∈ places, other < (unpacked.set place packed[packedIdx]).length := by
        intro other member
        rw [length_set]
        exact inside other (mem_cons_of_mem _ member)
      rw [foldlM_cons, putBack, getAt_inside read]
      change (setAt _ _ _ _ >>= fun unpacked => pure (packedIdx + 1, unpacked)) >>= _ = _
      rw [setAt_inside here]
      change places.foldlM _ (packedIdx + 1, unpacked.set place packed[packedIdx]) = _
      rw [ih rest (by omega), drop_eq_getElem_cons read, length_cons, Nat.add_right_comm, Nat.add_assoc]
      rfl

end Loops

section Inverse

variable {Block : Type} {nRows k : Nat} {blocks : List Block}

theorem checkPacking_full (aligned : k % qk1_0G128 = 0) (full : blocks.length = nRows * (k / qk1_0G128)) :
    checkPacking blocks nRows k = .ok () := by
  rw [checkPacking, refuseIf, if_neg (not_not_intro aligned)]
  change refuseIf _ _ = _
  rw [refuseIf, if_neg (by omega)]

theorem packBlocksForGemv_eq (aligned : k % qk1_0G128 = 0) (full : blocks.length = nRows * (k / qk1_0G128)) :
    packBlocksForGemv blocks nRows k = .ok (gather (packOrder nRows (k / qk1_0G128) 0) blocks) := by
  have all := packOrder_perm nRows (k / qk1_0G128)
  rw [← full] at all
  rw [packBlocksForGemv, checkPacking_full aligned full]
  change packTiles _ _ _ _ _ = _
  rw [packTiles_eq, foldlM_gather fun place member => reordered_inside all member]
  rfl

theorem unpackBlocksFromGemv_eq (zero : Block) (aligned : k % qk1_0G128 = 0)
    (full : blocks.length = nRows * (k / qk1_0G128)) : unpackBlocksFromGemv zero blocks nRows k =
      .ok (scatter ((packOrder nRows (k / qk1_0G128) 0).zip blocks) (List.replicate blocks.length zero)) := by
  have all := packOrder_perm nRows (k / qk1_0G128)
  rw [← full] at all
  rw [unpackBlocksFromGemv, checkPacking_full aligned full]
  change (unpackTiles _ _ _ _ _ >>= _) = _
  rw [unpackTiles_eq, ← full, foldlM_scatter]
  · rfl
  · intro place member
    rw [length_replicate]
    exact reordered_inside all member
  · rw [Nat.zero_add, all.length_eq, length_range]

/-- Both directions terminate, undo each other and reorder the blocks by the tiled layout. -/
theorem packing_inverse (zero : Block) (nRows k : Nat) (aligned : k % qk1_0G128 = 0) (blocks : List Block)
    (full : blocks.length = nRows * (k / qk1_0G128)) :
    (∃ packed, packBlocksForGemv blocks nRows k = .ok packed ∧ packed.Perm blocks ∧
      (∀ row < nRows, ∀ bi < k / qk1_0G128,
        packed[tiledPlace nRows (k / qk1_0G128) row bi]? = blocks[row * (k / qk1_0G128) + bi]?) ∧
      unpackBlocksFromGemv zero packed nRows k = .ok blocks) ∧
    ∃ unpacked, unpackBlocksFromGemv zero blocks nRows k = .ok unpacked ∧
      packBlocksForGemv unpacked nRows k = .ok blocks := by
  have all := packOrder_perm nRows (k / qk1_0G128)
  rw [← full] at all
  have perm := gather_perm all
  have size : (List.replicate blocks.length zero).length = blocks.length := length_replicate
  constructor
  · refine ⟨_, packBlocksForGemv_eq aligned full, perm, fun row inside bi within => ?_, ?_⟩
    · have place := getElem?_packOrder (Nat.zero_mod 32) (Nat.zero_le _) inside within
      rw [Nat.zero_mul, Nat.sub_zero] at place
      rw [getElem?_gather fun place member => reordered_inside all member, place, Option.bind_some]
    · rw [unpackBlocksFromGemv_eq zero aligned (perm.length_eq.trans full), perm.length_eq, scatter_gather all size]
  · refine ⟨_, unpackBlocksFromGemv_eq zero aligned full, ?_⟩
    have all' : (packOrder nRows (k / qk1_0G128) 0).Perm (List.range (List.replicate blocks.length zero).length) := by
      rwa [size]
    rw [packBlocksForGemv_eq aligned (by rw [length_scatter, size, full]), gather_scatter all' size.symm]

/-- The second tile of 33 rows has one row. -/
theorem packing_inverse_partial :
    (∃ packed, packBlocksForGemv (List.range 66) 33 256 = .ok packed ∧ packed.Perm (List.range 66) ∧
      (∀ row < 33, ∀ bi < 256 / qk1_0G128,
        packed[tiledPlace 33 (256 / qk1_0G128) row bi]? = (List.range 66)[row * (256 / qk1_0G128) + bi]?) ∧
      unpackBlocksFromGemv 0 packed 33 256 = .ok (List.range 66)) ∧
    ∃ unpacked, unpackBlocksFromGemv 0 (List.range 66) 33 256 = .ok unpacked ∧
      packBlocksForGemv unpacked 33 256 = .ok (List.range 66) :=
  packing_inverse 0 33 256 rfl (List.range 66) length_range

end Inverse

end Pictor.Kernels
