import Pictor.Construction.Attention.FlashDecode
import Mathlib.Analysis.SpecialFunctions.Log.Basic

namespace Pictor.FlashDecode
open Slice Softmax List

variable {F : Type} [Field F] [LinearOrder F]

section Attention

variable (e : Exponential F)

/-- The scores and the values of one column, over the positions of a stretch. -/
def column (query keys values : List F) (headDim : Nat) (scale : F) (positions : List Nat) (d : Nat) : List (F × F) :=
  positions.map fun t =>
    (score query (slice keys (t * headDim) headDim) scale, (slice values (t * headDim) headDim).getD d 0)

/-- Plain attention: the mean of the values under the softmax of their scores. -/
def attention (query keys values : List F) (headDim : Nat) (scale : F) (positions : List Nat) : List F :=
  (List.range headDim).map fun d => e.mean (column query keys values headDim scale positions d)

end Attention

variable {e : Exponential F} {query keys values : List F} {headDim seqLen : Nat} {scale : F} {positions : List Nat}

section Sums

variable {start : List F} {rows : List (F × List F)}

omit [LinearOrder F] in
/-- Each entry of an accumulated vector is its own sum. -/
theorem accumulate_eq (even : start.length = headDim) (even' : ∀ row ∈ rows, row.2.length = headDim) :
    accumulate start rows = (List.range headDim).map fun d =>
      start.getD d 0 + (rows.map fun row => row.1 * row.2.getD d 0).sum := by
  induction rows generalizing start with
  | nil =>
      refine ext_getElem (by rw [length_map, length_range]; exact even) fun d inside inside' => ?_
      rw [getElem_map, getElem_range, map_nil, sum_nil, add_zero]
      exact (getElem_eq_getD 0)
  | cons row rows ih =>
      have here := even' row mem_cons_self
      rw [accumulate, foldl_cons]
      refine (ih (by rw [length_zipWith, even, here, Nat.min_self]) fun other member =>
        even' other (mem_cons_of_mem _ member)).trans ?_
      refine map_congr_left fun d member => ?_
      have inside := mem_range.mp member
      have read {entries : List F} (within : d < entries.length) : entries.getD d 0 = entries[d] :=
        (getElem_eq_getD 0).symm
      rw [map_cons, sum_cons, ← add_assoc, read (by rw [length_zipWith]; omega), getElem_zipWith,
        read (by omega), read (by omega)]

omit [Field F] in
theorem largest_some {scores : List F} (some_ : scores ≠ []) : ∃ found, largest scores = some found := by
  have keeps (scores : List F) (found : F) :
      ∃ found', scores.foldl (fun found score => some (found.elim score (max · score))) (some found) = some found' := by
    induction scores generalizing found with
    | nil => exact ⟨found, rfl⟩
    | cons score scores ih => exact ih _
  obtain ⟨score, scores, rfl⟩ := exists_cons_of_ne_nil some_
  exact keeps scores score

end Sums

section Tiles

/-- The tiles of the indices from one on cover the positions behind the offset. -/
theorem tileLoop_positions {base remainder first : Nat} (filled : 0 < base) (count offset : Nat) :
    (tileLoop base remainder (List.range' first count) offset).flatMap (fun tile => List.range' tile.1 tile.2) =
        List.range' offset (count * base + (min (first + count) remainder - min first remainder)) ∧
      (tileLoop base remainder (List.range' first count) offset).length = count ∧
      ∀ tile ∈ tileLoop base remainder (List.range' first count) offset, 0 < tile.2 ∧
        tile.1 + tile.2 ≤ offset + (count * base + (min (first + count) remainder - min first remainder)) := by
  induction count generalizing first offset with
  | zero =>
      rw [range'_zero, tileLoop]
      exact ⟨by simp, rfl, fun _ member => absurd member not_mem_nil⟩
  | succ count ih =>
      rw [range'_succ, tileLoop]
      generalize extra : (if first < remainder then 1 else 0) = more
      rw [if_neg (by omega)]
      obtain ⟨covered, counted, each⟩ := @ih (first + 1) (offset + (base + more))
      have split : (count + 1) * base + (min (first + (count + 1)) remainder - min first remainder) =
          (base + more) + (count * base + (min (first + 1 + count) remainder - min (first + 1) remainder)) := by
        rw [Nat.succ_mul, ← extra]
        split <;> omega
      rw [split]
      refine ⟨?_, congrArg Nat.succ counted, forall_mem_cons.mpr ⟨⟨?_, ?_⟩, fun tile member => ?_⟩⟩
      · rw [flatMap_cons, covered, range'_append_1]
      · exact Nat.add_pos_left filled _
      · exact Nat.add_le_add_left (Nat.le_add_right _ _) _
      · obtain ⟨positive, inside⟩ := each tile member
        exact ⟨positive, by rwa [Nat.add_assoc] at inside⟩

/-- The tiles take each position once and in order, and none of them is empty. -/
theorem tiles_positions (filled : 0 < seqLen) (numTiles : Nat) :
    (tiles seqLen numTiles).flatMap (fun tile => List.range' tile.1 tile.2) = List.range seqLen ∧
      tiles seqLen numTiles ≠ [] ∧ ∀ tile ∈ tiles seqLen numTiles, 0 < tile.2 ∧ tile.1 + tile.2 ≤ seqLen := by
  rw [tiles]
  have bounds : 1 ≤ max (min numTiles seqLen) 1 ∧ max (min numTiles seqLen) 1 ≤ seqLen := by omega
  generalize max (min numTiles seqLen) 1 = count at bounds
  obtain ⟨covered, counted, each⟩ := @tileLoop_positions (seqLen / count) (seqLen % count) 0
    (Nat.div_pos bounds.2 bounds.1) count 0
  have whole : count * (seqLen / count) + (min (0 + count) (seqLen % count) - min 0 (seqLen % count)) = seqLen := by
    have rest := Nat.mod_lt seqLen bounds.1
    have parts := Nat.div_add_mod seqLen count
    omega
  rw [whole] at covered each
  rw [← range_eq_range'] at covered counted each
  rw [← range_eq_range'] at covered
  refine ⟨covered, fun none => ?_, fun tile member => ?_⟩
  · rw [none] at counted
    rw [← counted] at bounds
    exact absurd bounds.1 (by decide)
  · obtain ⟨positive, inside⟩ := each tile member
    exact ⟨positive, by rwa [Nat.zero_add] at inside⟩

end Tiles

section SingleHead

omit [LinearOrder F] in
theorem column_flatMap (tiles : List (Nat × Nat)) (d : Nat) :
    column query keys values headDim scale (tiles.flatMap fun tile => List.range' tile.1 tile.2) d =
      (tiles.map fun tile => column query keys values headDim scale (List.range' tile.1 tile.2) d).flatten := by
  rw [column, map_flatMap, flatMap_def]
  rfl

theorem getD_attention {d : Nat} (inside : d < headDim) :
    (attention e query keys values headDim scale positions).getD d 0 =
      e.mean (column query keys values headDim scale positions d) := by
  rw [attention, getD_eq_getElem?_getD, getElem?_map, getElem?_range inside]
  rfl

variable [IsStrictOrderedRing F]

omit [IsStrictOrderedRing F] in
/-- A vector of weighted values, divided by the sum of the weights, is the attention. -/
theorem accumulate_shifted (full : ∀ t ∈ positions, (slice values (t * headDim) headDim).length = headDim) (shift : F) :
    (accumulate (List.replicate headDim 0) (positions.map fun t =>
      (e.exp (score query (slice keys (t * headDim) headDim) scale - shift), slice values (t * headDim) headDim))).map
        (· / (positions.map fun t => e.exp (score query (slice keys (t * headDim) headDim) scale - shift)).sum) =
      attention e query keys values headDim scale positions := by
  rw [accumulate_eq length_replicate fun row member => ?_, attention, map_map]
  · refine map_congr_left fun d member => ?_
    have zero : (List.replicate headDim (0 : F)).getD d 0 = 0 := by
      rw [getD_eq_getElem?_getD, getElem?_replicate, if_pos (mem_range.mp member), Option.getD_some]
    have shifted := Exponential.mean_shifted (e := e) (column query keys values headDim scale positions d) shift
    rw [column, map_map, map_map, map_map] at shifted
    rw [Function.comp, zero, zero_add, map_map]
    exact shifted
  · obtain ⟨t, inside, rfl⟩ := mem_map.mp member
    exact full t inside

/-- A tile gives the attention of its positions, and the logarithm of their mass. -/
theorem flashDecodeTile_eq (full : values.length = seqLen * headDim) {offset tileLen : Nat} (positive : 0 < tileLen)
    (inside : offset + tileLen ≤ seqLen) :
    ∃ maxScore, flashDecodeTile e query (slice keys (offset * headDim) (tileLen * headDim))
        (slice values (offset * headDim) (tileLen * headDim)) tileLen headDim scale =
      (attention e query keys values headDim scale (List.range' offset tileLen), some maxScore,
        some (e.ln (e.mass ((List.range' offset tileLen).map fun t =>
          score query (slice keys (t * headDim) headDim) scale)))) := by
  have row (rows : List F) (t : Nat) (below : t < tileLen) :
      slice (slice rows (offset * headDim) (tileLen * headDim)) (t * headDim) headDim =
        slice rows ((offset + t) * headDim) headDim := by
    rw [slice_slice, Nat.add_mul]
    have room := Nat.mul_le_mul_right headDim (Nat.succ_le_of_lt below)
    rwa [Nat.succ_mul] at room
  have scores : (List.range tileLen).map (fun t => score query (slice (slice keys (offset * headDim) (tileLen * headDim))
      (t * headDim) headDim) scale) =
        (List.range' offset tileLen).map fun t => score query (slice keys (t * headDim) headDim) scale := by
    rw [range'_eq_map_range, map_map]
    refine map_congr_left fun t member => ?_
    rw [row keys t (mem_range.mp member)]
    rfl
  have some_ : (List.range' offset tileLen).map (fun t => score query (slice keys (t * headDim) headDim) scale) ≠ [] := by
    intro none
    have counted := congrArg List.length none
    rw [length_map, length_range', length_nil] at counted
    omega
  obtain ⟨maxScore, found⟩ := largest_some some_
  have rows : ((List.range' offset tileLen).map fun t =>
      e.exp (score query (slice keys (t * headDim) headDim) scale - maxScore)).zipIdx.map (fun weight =>
        (weight.1, slice (slice values (offset * headDim) (tileLen * headDim)) (weight.2 * headDim) headDim)) =
      (List.range' offset tileLen).map fun t => (e.exp (score query (slice keys (t * headDim) headDim) scale - maxScore),
        slice values (t * headDim) headDim) := by
    refine ext_getElem (by simp) fun t within within' => ?_
    have below : t < tileLen := by simpa using within'
    rw [getElem_map, getElem_zipIdx, getElem_map, getElem_map, getElem_range', Nat.one_mul,
      Nat.zero_add, row values t below]
  have sum : 0 < ((List.range' offset tileLen).map fun t =>
      e.exp (score query (slice keys (t * headDim) headDim) scale - maxScore)).sum := by
    have shifted := Exponential.mass_shifted (e := e) ((List.range' offset tileLen).map fun t =>
      score query (slice keys (t * headDim) headDim) scale) maxScore
    rw [map_map] at shifted
    exact lt_of_lt_of_eq (div_pos (Exponential.mass_pos some_) (e.exp_pos maxScore)) shifted.symm
  refine ⟨maxScore, ?_⟩
  rw [flashDecodeTile]
  dsimp only
  rw [scores, found]
  dsimp only
  rw [map_map, Function.comp_def, rows, if_pos sum, accumulate_shifted]
  · refine congrArg (Prod.mk _) (congrArg (Prod.mk _) (congrArg some ?_))
    have same := Exponential.ln_shifted (e := e) some_ maxScore
    rwa [map_map, Function.comp_def] at same
  · intro t member
    have reached := (mem_range'_1.mp member).2
    have room := Nat.mul_le_mul_right headDim (show t + 1 ≤ seqLen by omega)
    rw [Nat.succ_mul] at room
    rw [slice, length_take, length_drop, full]
    omega

omit [IsStrictOrderedRing F] in
theorem combineTileOutputs_valid {outputs : List (List F)} {lses : List (Option F)} {valid : List (Nat × F)} {shift : F}
    (many : 2 ≤ outputs.length) (many' : 2 ≤ valid.length) (same : validTiles lses = valid)
    (found : largest (valid.map Prod.snd) = some shift) :
    combineTileOutputs e outputs lses headDim = accumulate (List.replicate headDim 0) (valid.map fun tile =>
      (e.exp (tile.2 - (shift + e.ln (valid.map fun tile => e.exp (tile.2 - shift)).sum)), outputs.getD tile.1 [])) := by
  match outputs, many, valid, many' with
  | _ :: _ :: _, _, _ :: _ :: _, _ =>
      rw [combineTileOutputs.eq_def]
      dsimp only
      rw [same]
      dsimp only
      rw [found]

omit [IsStrictOrderedRing F] in
/-- Several tiles are weighted by their shares of the mass. -/
theorem combineTileOutputs_many {Tile : Type} {tiles : List Tile} (many : 2 ≤ tiles.length) (output : Tile → List F)
    (lse : Tile → F) :
    ∃ shift, combineTileOutputs e (tiles.map output) (tiles.map fun tile => some (lse tile)) headDim =
      accumulate (List.replicate headDim 0) (tiles.map fun tile => (e.exp (lse tile -
        (shift + e.ln ((tiles.map lse).map fun lse => e.exp (lse - shift)).sum)), output tile)) := by
  have valid : validTiles (tiles.map fun tile => some (lse tile)) = tiles.zipIdx.map fun tile => (tile.2, lse tile.1) := by
    rw [validTiles, zipIdx_map, filterMap_map, ← filterMap_eq_map]
    rfl
  have numbers : (tiles.zipIdx.map fun tile => (tile.2, lse tile.1)).map Prod.snd = tiles.map lse := by
    conv => rhs; rw [← zipIdx_map_fst 0 tiles]
    rw [map_map, map_map]
    rfl
  have outputs (global : F) : (tiles.zipIdx.map fun tile => (tile.2, lse tile.1)).map (fun tile =>
      (e.exp (tile.2 - global), (tiles.map output).getD tile.1 [])) =
        tiles.map fun tile => (e.exp (lse tile - global), output tile) := by
    conv => rhs; rw [← zipIdx_map_fst 0 tiles]
    rw [map_map, map_map]
    refine map_congr_left fun tile member => ?_
    have found := mk_mem_zipIdx_iff_getElem?.mp member
    rw [Function.comp, Function.comp, getD_eq_getElem?_getD, getElem?_map, found]
    rfl
  have some_ : tiles.map lse ≠ [] := by
    intro none
    rw [map_eq_nil_iff.mp none, length_nil] at many
    omega
  obtain ⟨shift, found⟩ := largest_some some_
  refine ⟨shift, ?_⟩
  rw [combineTileOutputs_valid (by rwa [length_map]) (by rwa [length_map, length_zipIdx]) valid
    (numbers ▸ found), outputs, ← numbers]
  simp only [map_map]
  rfl

/-- The combination of tiles is the attention of all their positions. -/
theorem combineTileOutputs_eq {tiles : List (Nat × Nat)} (some_ : tiles ≠ []) (positive : ∀ tile ∈ tiles, 0 < tile.2) :
    combineTileOutputs e
      (tiles.map fun tile => attention e query keys values headDim scale (List.range' tile.1 tile.2))
      (tiles.map fun tile => some (e.ln (e.mass ((List.range' tile.1 tile.2).map fun t =>
        score query (slice keys (t * headDim) headDim) scale)))) headDim =
      attention e query keys values headDim scale (tiles.flatMap fun tile => List.range' tile.1 tile.2) := by
  by_cases many : 2 ≤ tiles.length
  case neg =>
    match tiles, some_, many with
    | [tile], _, _ => rw [map_singleton, combineTileOutputs, flatMap_singleton]
    | _ :: _ :: _, _, many => exact absurd (Nat.le_add_left 2 _) many
  obtain ⟨shift, combined⟩ := @combineTileOutputs_many F _ _ e headDim _ tiles many
    (fun tile => attention e query keys values headDim scale (List.range' tile.1 tile.2))
    fun tile => e.ln (e.mass ((List.range' tile.1 tile.2).map fun t =>
      score query (slice keys (t * headDim) headDim) scale))
  have filled : ∀ tile ∈ tiles, List.range' tile.1 tile.2 ≠ [] := by
    intro tile member none
    have counted := congrArg List.length none
    have long := positive tile member
    rw [length_range', length_nil] at counted
    omega
  have columns_filled (d : Nat) : ∀ part ∈ tiles.map fun tile =>
      column query keys values headDim scale (List.range' tile.1 tile.2) d, part ≠ [] := by
    intro part member none
    obtain ⟨tile, listed, rfl⟩ := mem_map.mp member
    exact filled tile listed (map_eq_nil_iff.mp none)
  have parts_filled (d : Nat) : ∀ part ∈ tiles.map fun tile =>
      (column query keys values headDim scale (List.range' tile.1 tile.2) d).map Prod.fst, part ≠ [] := by
    intro part member none
    obtain ⟨tile, listed, rfl⟩ := mem_map.mp member
    exact filled tile listed (map_eq_nil_iff.mp (map_eq_nil_iff.mp none))
  rw [combined, Exponential.ln_shifted fun none => some_ (map_eq_nil_iff.mp none),
    accumulate_eq length_replicate fun row member => ?_, attention]
  · refine map_congr_left fun d member => ?_
    have inside := mem_range.mp member
    have zero : (List.replicate headDim (0 : F)).getD d 0 = 0 := by
      rw [getD_eq_getElem?_getD, getElem?_replicate, if_pos inside, Option.getD_some]
    have firsts (positions : List Nat) : (column query keys values headDim scale positions d).map Prod.fst =
        positions.map fun t => score query (slice keys (t * headDim) headDim) scale := map_map
    have whole : e.mass ((tiles.map fun tile => column query keys values headDim scale (List.range' tile.1 tile.2)
        d).flatten.map Prod.fst) = e.mass (tiles.map fun tile => e.ln (e.mass ((List.range' tile.1 tile.2).map fun t =>
          score query (slice keys (t * headDim) headDim) scale))) := by
      have parts := Exponential.mass_ln (e := e) (parts_filled d)
      rw [map_map] at parts
      rw [map_flatten, map_map]
      simp only [Function.comp_def, firsts] at parts ⊢
      exact parts.symm
    have mean := Exponential.mean_flatten (e := e) (columns_filled d) fun none => some_ (map_eq_nil_iff.mp none)
    rw [whole, map_map] at mean
    rw [zero, zero_add, map_map, column_flatMap, ← mean]
    refine congrArg List.sum (map_congr_left fun tile _ => ?_)
    rw [Function.comp, Function.comp, firsts, getD_attention inside]
  · obtain ⟨tile, _, rfl⟩ := mem_map.mp member
    rw [attention, length_map, length_range]

/-- A single head is the attention of all positions. -/
theorem flashDecodeSingleHead_eq (filled : 0 < seqLen) (even : query.length = headDim)
    (fullKeys : keys.length = seqLen * headDim) (full : values.length = seqLen * headDim)
    (config : FlashDecodeConfig F) : flashDecodeSingleHead e query keys values seqLen headDim config =
      .ok (attention e query keys values headDim config.scale (List.range seqLen)) := by
  obtain ⟨covered, some_, each⟩ := tiles_positions filled config.numTiles
  rw [flashDecodeSingleHead, if_neg (Nat.ne_of_gt filled), if_neg (not_not_intro even),
    if_neg (not_not_intro fullKeys), if_neg (not_not_intro full)]
  dsimp only
  rw [map_map, map_map, ← covered, ← combineTileOutputs_eq some_ fun tile member => (each tile member).1]
  congr 2
  all_goals
    refine map_congr_left fun tile member => ?_
    obtain ⟨maxScore, same⟩ := @flashDecodeTile_eq F _ _ e query keys values headDim seqLen config.scale _ full _ _
      (each tile member).1 (each tile member).2
    rw [Function.comp, same]

end SingleHead

section MultiHead

/-- The rows of one head, one position after another. -/
def headRows (rows : List F) (numHeads headDim head : Nat) (positions : List Nat) : List F :=
  positions.flatMap fun t => slice rows (t * numHeads * headDim + head * headDim) headDim

/-- Pieces of one size, copied into a buffer one behind the other. -/
theorem foldl_copyFromSlice {Element : Type} (default : Element) (pieces : List (List Element)) {width done : Nat}
    (even : ∀ piece ∈ pieces, piece.length = width) (front : List Element) (reached : front.length = done * width) :
    (pieces.zipIdx done).foldl (fun buffer piece => copyFromSlice buffer (piece.2 * width) piece.1)
      (front ++ List.replicate (pieces.length * width) default) = front ++ pieces.flatten := by
  induction pieces generalizing done front with
  | nil => simp
  | cons piece pieces ih =>
      have here := even piece mem_cons_self
      have copied : copyFromSlice (front ++ List.replicate ((piece :: pieces).length * width) default) (done * width) piece =
          (front ++ piece) ++ List.replicate (pieces.length * width) default := by
        rw [copyFromSlice, ← reached, take_left, here, ← drop_drop, drop_left, drop_replicate,
          length_cons, Nat.succ_mul, Nat.add_sub_cancel]
      rw [zipIdx_cons, foldl_cons, copied, ih (fun other member => even other (mem_cons_of_mem _ member)),
        append_assoc, flatten_cons]
      rw [length_append, reached, here, Nat.succ_mul]

variable {queries rows : List F} {numHeads head : Nat}

/-- The pieces in their order are copied to the whole. -/
theorem foldl_copied {Element : Type} (default : Element) (piece : Nat → List Element) {width : Nat} (count : Nat)
    (even : ∀ index < count, (piece index).length = width) :
    (List.range count).foldl (fun buffer index => copyFromSlice buffer (index * width) (piece index))
      (List.replicate (count * width) default) = (List.range count).flatMap piece := by
  have copied := @foldl_copyFromSlice Element default ((List.range count).map piece) width 0 (by
    intro entry member
    obtain ⟨index, inside, rfl⟩ := mem_map.mp member
    exact even index (mem_range.mp inside)) [] (Nat.zero_mul _).symm
  have listed : ((List.range count).map piece).zipIdx = (List.range count).map fun index => (piece index, index) := by
    refine ext_getElem (by simp) fun index inside inside' => ?_
    simp
  rw [listed, foldl_map, nil_append, nil_append, length_map, length_range,
    ← flatMap_def] at copied
  exact copied

variable (full : rows.length = seqLen * numHeads * headDim)
include full

variable (below : head < numHeads)
include below

omit [Field F] [LinearOrder F] in
theorem head_inside {t : Nat} (inside : t < seqLen) :
    t * numHeads * headDim + head * headDim + headDim ≤ rows.length := by
  have room := row_le inside numHeads
  have room' := Nat.mul_le_mul_right headDim (show t * numHeads + head + 1 ≤ seqLen * numHeads by omega)
  rw [Nat.succ_mul, Nat.add_mul] at room'
  rwa [full]

omit [Field F] [LinearOrder F] in
theorem length_headRow {t : Nat} (inside : t < seqLen) :
    (slice rows (t * numHeads * headDim + head * headDim) headDim).length = headDim :=
  length_slice (head_inside full below inside)

omit [LinearOrder F] in
/-- The rows of a head are copied out. -/
theorem perHead_eq :
    perHead rows numHeads seqLen headDim head = some (headRows rows numHeads headDim head (List.range seqLen)) := by
  have runs (indices : List Nat) (inside : ∀ t ∈ indices, t < seqLen) (buffer : List F) :
      indices.foldlM (fun buffer t =>
        let start := t * numHeads * headDim + head * headDim
        if start + headDim ≤ rows.length then some (copyFromSlice buffer (t * headDim) (slice rows start headDim))
        else none) buffer = some (indices.foldl (fun buffer t => copyFromSlice buffer (t * headDim)
          (slice rows (t * numHeads * headDim + head * headDim) headDim)) buffer) := by
    induction indices generalizing buffer with
    | nil => rfl
    | cons t indices ih =>
        rw [foldlM_cons, foldl_cons]
        dsimp only
        rw [if_pos (head_inside full below (inside t mem_cons_self))]
        exact ih (fun other member => inside other (mem_cons_of_mem _ member)) _
  rw [perHead, runs _ (fun t member => mem_range.mp member), foldl_copied 0 (fun t => slice rows
    (t * numHeads * headDim + head * headDim) headDim) seqLen fun t inside => length_headRow full below inside]
  rfl

omit [Field F] [LinearOrder F] in
theorem length_headRows : (headRows rows numHeads headDim head (List.range seqLen)).length = seqLen * headDim := by
  rw [headRows, length_flatMap]
  have each : (List.range seqLen).map (fun t => (slice rows (t * numHeads * headDim + head * headDim) headDim).length) =
      (List.range seqLen).map fun _ => headDim :=
    map_congr_left fun t member => length_headRow full below (mem_range.mp member)
  rw [each, map_const', sum_replicate_nat, length_range]

omit full below

variable [IsStrictOrderedRing F]

/-- Each head gives the attention of its own rows. -/
theorem flashDecodeMultiHead_eq (filled : 0 < seqLen) (even : queries.length = numHeads * headDim)
    (fullKeys : keys.length = seqLen * numHeads * headDim) (full : values.length = seqLen * numHeads * headDim)
    (config : FlashDecodeConfig F) : flashDecodeMultiHead e queries keys values numHeads seqLen headDim config =
      some (.ok ((List.range numHeads).flatMap fun head => attention e (slice queries (head * headDim) headDim)
        (headRows keys numHeads headDim head (List.range seqLen)) (headRows values numHeads headDim head (List.range seqLen))
        headDim config.scale (List.range seqLen))) := by
  have buffers {rows : List F} (full : rows.length = seqLen * numHeads * headDim) :
      (List.range numHeads).mapM (fun head => perHead rows numHeads seqLen headDim head) =
        some ((List.range numHeads).map fun head => headRows rows numHeads headDim head (List.range seqLen)) := by
    have runs (heads : List Nat) (below : ∀ head ∈ heads, head < numHeads) :
        heads.mapM (fun head => perHead rows numHeads seqLen headDim head) =
          some (heads.map fun head => headRows rows numHeads headDim head (List.range seqLen)) := by
      induction heads with
      | nil => rfl
      | cons head heads ih =>
          rw [mapM_cons, perHead_eq full (below head mem_cons_self), Option.bind_eq_bind, Option.bind_some,
            ih fun other member => below other (mem_cons_of_mem _ member)]
          rfl
    exact runs _ fun head member => mem_range.mp member
  have read {Row : Type} (f : Nat → Row) (default : Row) {head : Nat} (below : head < numHeads) :
      ((List.range numHeads).map f).getD head default = f head := by
    rw [getD_eq_getElem?_getD, getElem?_map, getElem?_range below]
    rfl
  rw [flashDecodeMultiHead, if_neg (Nat.ne_of_gt filled), if_neg (not_not_intro even), buffers fullKeys, buffers full]
  dsimp only [Option.bind_eq_bind, Option.bind_some, Option.pure_def]
  have results : (List.range numHeads).map (fun head => flashDecodeSingleHead e (slice queries (head * headDim) headDim)
      (((List.range numHeads).map fun head => headRows keys numHeads headDim head (List.range seqLen)).getD head [])
      (((List.range numHeads).map fun head => headRows values numHeads headDim head (List.range seqLen)).getD head [])
      seqLen headDim config) = (List.range numHeads).map fun head => .ok (attention e
        (slice queries (head * headDim) headDim) (headRows keys numHeads headDim head (List.range seqLen))
        (headRows values numHeads headDim head (List.range seqLen)) headDim config.scale (List.range seqLen)) := by
    refine map_congr_left fun head member => ?_
    have below := mem_range.mp member
    rw [read _ _ below, read _ _ below, flashDecodeSingleHead_eq filled (length_row below even.ge)
      (length_headRows fullKeys below) (length_headRows full below)]
  have runs {outputs : List (Nat × List F)} (buffer : List F) :
      (outputs.map fun output => (Except.ok output.2, output.1)).foldlM (fun buffer
          (result : Except FlashDecodeError (List F) × Nat) => do
            return copyFromSlice buffer (result.2 * headDim) (← result.1)) buffer =
        .ok (outputs.foldl (fun buffer output => copyFromSlice buffer (output.1 * headDim) output.2) buffer) := by
    induction outputs generalizing buffer with
    | nil => rfl
    | cons output outputs ih =>
        rw [map_cons, foldlM_cons, foldl_cons]
        exact ih _
  have zipped (output : Nat → List F) : ((List.range numHeads).map fun head =>
      (Except.ok (output head) : Except FlashDecodeError (List F))).zipIdx =
        ((List.range numHeads).map fun head => (head, output head)).map fun output => (.ok output.2, output.1) := by
    refine ext_getElem (by simp) fun head inside inside' => ?_
    simp
  rw [results, zipped, runs, foldl_map, foldl_copied 0 _ numHeads fun head below => ?_]
  rw [attention, length_map, length_range]

end MultiHead

section Exact

variable [IsStrictOrderedRing F]

/-- The values of the positions, each weighted by its share of the exponentials of the scores. -/
def softmaxSum (e : Exponential F) (query keys values : List F) (seqLen headDim : Nat) (scale : F) : List F :=
  let weight t := e.exp (score query (slice keys (t * headDim) headDim) scale)
  (List.range headDim).map fun d => ((List.range seqLen).map fun t =>
    weight t / ((List.range seqLen).map weight).sum * (slice values (t * headDim) headDim).getD d 0).sum

omit [IsStrictOrderedRing F] in
theorem attention_eq_softmaxSum (query keys values : List F) (seqLen headDim : Nat) (scale : F) :
    attention e query keys values headDim scale (List.range seqLen) =
      softmaxSum e query keys values seqLen headDim scale := by
  rw [attention, softmaxSum]
  refine map_congr_left fun d _ => ?_
  rw [Exponential.mean_eq_sum, column, map_map, map_map, Exponential.mass, map_map]
  rfl

/-- For every number of tiles flash decoding is plain attention, its tiles take each position once and in
order, and several heads are single heads on their own rows. -/
theorem flashDecode_exact (e : Exponential F) (filled : 0 < seqLen) (headDim : Nat) (config : FlashDecodeConfig F) :
    (∀ query keys values : List F, query.length = headDim → keys.length = seqLen * headDim →
      values.length = seqLen * headDim → flashDecodeSingleHead e query keys values seqLen headDim config =
        .ok (softmaxSum e query keys values seqLen headDim config.scale)) ∧
    (tiles seqLen config.numTiles).flatMap (fun tile => List.range' tile.1 tile.2) = List.range seqLen ∧
    ∀ (numHeads : Nat) (queries keys values : List F), queries.length = numHeads * headDim →
      keys.length = seqLen * numHeads * headDim → values.length = seqLen * numHeads * headDim →
      ∃ heads : Nat → List F, flashDecodeMultiHead e queries keys values numHeads seqLen headDim config =
          some (.ok ((List.range numHeads).flatMap heads)) ∧
        ∀ head < numHeads, flashDecodeSingleHead e (slice queries (head * headDim) headDim)
          (headRows keys numHeads headDim head (List.range seqLen)) (headRows values numHeads headDim head
          (List.range seqLen)) seqLen headDim config = .ok (heads head) ∧ (heads head).length = headDim := by
  refine ⟨fun query keys values even fullKeys full => ?_, (tiles_positions filled config.numTiles).1,
    fun numHeads queries keys values even fullKeys full => ⟨_, flashDecodeMultiHead_eq filled even fullKeys full config,
      fun head below => ⟨flashDecodeSingleHead_eq filled (length_row below even.ge) (length_headRows fullKeys below) (length_headRows full below)
        config, ?_⟩⟩⟩
  · rw [flashDecodeSingleHead_eq filled even fullKeys full, attention_eq_softmaxSum]
  · rw [attention, length_map, length_range]

/-- The real exponential. -/
noncomputable def realExponential : Exponential ℝ :=
  ⟨Real.exp, Real.log, Real.exp_add, Real.exp_pos, fun _ positive => Real.exp_log positive, Real.log_exp⟩

theorem flashDecode_exact_real : (tiles 5 3).flatMap (fun tile => List.range' tile.1 tile.2) = List.range 5 ∧
    flashDecodeSingleHead realExponential [1, 2] (List.replicate 10 1) (List.replicate 10 3) 5 2 ⟨3, 1⟩ =
      .ok (softmaxSum realExponential [1, 2] (List.replicate 10 1) (List.replicate 10 3) 5 2 1) :=
  have exact_ := flashDecode_exact realExponential (show 0 < 5 by decide) 2 ⟨3, 1⟩
  ⟨exact_.2.1, exact_.1 [1, 2] _ _ rfl length_replicate length_replicate⟩

end Exact

end Pictor.FlashDecode
