import Pictor.Construction.Sharding.TensorParallel
import Pictor.Library.RowMajor

namespace Pictor.Sharding
open Slice Tiling RowMajor List

variable {R : Type} [Semiring R] {total count : Nat}

/-- The shards cut the dimension evenly, and the last shard ends it. -/
def evenCut (total : Nat) (positive : 0 < count) : Cut total count where
  boundary place := if place < count then place * (total / count) else total
  starts := by rw [if_pos positive, Nat.zero_mul]
  rises := by
    intro place inside
    have whole := Nat.div_add_mod total count
    have below := Nat.mul_le_mul_right (total / count) (Nat.le_of_lt inside)
    generalize total / count = base at whole below
    rw [if_pos inside]
    by_cases more : place + 1 < count
    · rw [if_pos more, Nat.succ_mul]
      omega
    · rw [if_neg more]
      omega
  ends := if_neg (Nat.lt_irrefl count)

variable {place : Nat}

theorem evenCut_boundary (positive : 0 < count) (inside : place < count) :
    (evenCut total positive).boundary place = place * (total / count) := if_pos inside

theorem evenCut_size (positive : 0 < count) (inside : place < count) : (evenCut total positive).size place =
      if place + 1 = count then total / count + total % count else total / count := by
  rw [Cut.size, evenCut_boundary positive inside]
  by_cases last : place + 1 = count
  · have whole := Nat.div_add_mod total count
    have most : count * (total / count) = place * (total / count) + total / count := by
      rw [← Nat.succ_mul, Nat.succ_eq_add_one, last]
    rw [if_pos last, last, (evenCut total positive).ends]
    generalize total / count = base at whole most
    omega
  · rw [if_neg last, evenCut_boundary positive (by omega), Nat.succ_mul, Nat.add_sub_cancel_left]

/-- The shard of a place. -/
def shardAt (total : Nat) (positive : 0 < count) (dim : ShardDim) (place : Nat) : ShardInfo :=
  ⟨place, count, dim, (evenCut total positive).boundary place, (evenCut total positive).size place⟩

theorem new_shardAt (positive : 0 < count) (dim : ShardDim) (inside : place < count) :
    ShardInfo.new place count total dim = .ok (shardAt total positive dim place) := by
  rw [ShardInfo.new, if_neg (Nat.ne_of_gt positive), shardAt, evenCut_boundary positive inside,
    evenCut_size positive inside]

/-- The ranges of the shards are disjoint and cover the indices below a total. -/
def PartitionsIndices (shards : List ShardInfo) (total : Nat) : Prop :=
  (∀ idx, (∃ shard ∈ shards, shard.coversIndex idx) ↔ idx < total) ∧
    shards.Pairwise fun first second => ∀ idx, first.coversIndex idx → ¬ second.coversIndex idx

theorem shards_partition (positive : 0 < count) (dim : ShardDim) :
    PartitionsIndices ((List.range count).map (shardAt total positive dim)) total := by
  constructor
  · intro idx
    constructor
    · rintro ⟨shard, member, covers⟩
      obtain ⟨place, inside, rfl⟩ := mem_map.mp member
      exact Nat.lt_of_lt_of_le covers.2 ((evenCut total positive).piece_inside (mem_range.mp inside))
    · intro below
      obtain ⟨place, inside, covers⟩ := (evenCut total positive).exists_piece below
      exact ⟨_, mem_map_of_mem (mem_range.mpr inside), covers⟩
  · rw [pairwise_map]
    refine pairwise_lt_range.imp_of_mem fun {first second} _ inside less idx covers covers' => ?_
    have apart := (evenCut total positive).pieces_apart less (mem_range.mp inside)
    exact absurd (Nat.lt_of_lt_of_le covers.2 apart) (Nat.not_lt.mpr covers'.1)

/-- The bias of a row. -/
def biasAt (bias : Option (List R)) (row : Nat) : R := (bias.bind fun bias => bias[row]?).getD 0

variable {row : Nat}

theorem addBias_eq {bias : Option (List R)} (inside : ∀ values ∈ bias, row < values.length) (acc : R) :
    addBias bias row acc = .ok (acc + biasAt bias row) := by
  cases bias with
  | none => rw [addBias, biasAt, Option.bind_none, Option.getD_none, add_zero]
  | some values =>
      have below := inside values rfl
      rw [addBias, getAt_inside below, biasAt, Option.bind_some, getElem?_eq_getElem below, Option.getD_some]
      rfl

/-- One output of the whole layer. -/
def outputAt (weights : List R) (bias : Option (List R)) (inFeatures : Nat) (input : List R) (row : Nat) : R :=
  dot (slice weights (row * inFeatures) inFeatures) input + biasAt bias row

section Layer

variable {weights input : List R} {bias : Option (List R)} {inFeatures outFeatures : Nat}

section Column

/-- The shard of a place has the rows of its range. -/
def columnShard (weights : List R) (bias : Option (List R)) (inFeatures outFeatures : Nat) (positive : 0 < count)
    (place : Nat) : ShardedLinear R :=
  let shard := shardAt outFeatures positive .output place
  ⟨slice weights (shard.offset * inFeatures) (shard.size * inFeatures),
    bias.map fun values => slice values shard.offset shard.size, shard, inFeatures, outFeatures⟩

omit [Semiring R] in
theorem partitionColumnParallel_eq (positive : 0 < count) (full : weights.length = outFeatures * inFeatures)
    (biased : ∀ values ∈ bias, values.length = outFeatures) :
    partitionColumnParallel weights bias inFeatures outFeatures count =
      .ok ((List.range count).map (columnShard weights bias inFeatures outFeatures positive)) := by
  refine mapM_ok fun place member => ?_
  have inside := (evenCut outFeatures positive).piece_inside (mem_range.mp member)
  have room := Nat.mul_le_mul_right inFeatures inside
  rw [new_shardAt positive .output (mem_range.mp member)]
  change (part _ weights (_ * inFeatures) _ >>= _) = _
  rw [part_inside (Nat.mul_le_mul_right _ (Nat.le_add_right _ _)) (by rw [full]; exact room), ← Nat.sub_mul,
    Nat.add_sub_cancel_left]
  cases bias with
  | none => rfl
  | some values =>
      change (part _ values _ _ >>= _) = _
      rw [part_inside (Nat.le_add_right _ _) (by rw [biased values rfl]; exact inside), Nat.add_sub_cancel_left]
      rfl

theorem columnShard_forward (positive : 0 < count) (full : weights.length = outFeatures * inFeatures)
    (biased : ∀ values ∈ bias, values.length = outFeatures) (wide : input.length = inFeatures) (inside : place < count) : (columnShard weights bias inFeatures outFeatures positive place).forward input =
      .ok (slice ((List.range outFeatures).map (outputAt weights bias inFeatures input))
        ((evenCut outFeatures positive).boundary place) ((evenCut outFeatures positive).size place)) := by
  have fits := (evenCut outFeatures positive).piece_inside inside
  generalize offsets : (evenCut outFeatures positive).boundary place = offset at fits
  generalize sizes : (evenCut outFeatures positive).size place = size at fits
  have rows : slice ((List.range outFeatures).map (outputAt weights bias inFeatures input)) offset size =
      (List.range size).map fun row => outputAt weights bias inFeatures input (offset + row) := by
    ext1 row
    rw [getElem?_slice, getElem?_map, getElem?_map]
    by_cases below : row < size
    · rw [if_pos below, getElem?_range (by omega), getElem?_range below]
      rfl
    · rw [if_neg below, getElem?_eq_none (by rw [length_range]; omega)]
      rfl
  rw [rows, columnShard, ShardedLinear.forward]
  simp only [shardAt, offsets, sizes]
  refine mapM_ok fun row member => ?_
  have below := mem_range.mp member
  have room : (offset + size) * inFeatures ≤ outFeatures * inFeatures := Nat.mul_le_mul_right inFeatures fits
  have inner := row_le below inFeatures
  rw [Nat.add_mul] at room
  have length : (slice weights (offset * inFeatures) (size * inFeatures)).length = size * inFeatures := by
    rw [slice, length_take, length_drop, full]
    omega
  rw [take_of_length_le (Nat.le_of_eq wide), zipIdx_dot input (by rw [length, wide]; exact inner)]
  change addBias _ row (0 + _) = _
  rw [zero_add, addBias_eq]
  · rw [outputAt, Nat.add_zero, wide, slice_slice inner, ← Nat.add_mul]
    congr 2
    cases bias with
    | none => rfl
    | some values =>
        change ((slice values offset size)[row]?).getD 0 = (values[offset + row]?).getD 0
        rw [getElem?_slice, if_pos below]
  · intro values here
    obtain ⟨whole, found, rfl⟩ := Option.map_eq_some_iff.mp here
    have tall := biased whole found
    rw [slice, length_take, length_drop]
    omega

/-- The shards gather the outputs of the layer. -/
theorem columnParallel_forward (positive : 0 < count) (full : weights.length = outFeatures * inFeatures)
    (biased : ∀ values ∈ bias, values.length = outFeatures) (wide : input.length = inFeatures) :
    tensorParallelForward ((List.range count).map (columnShard weights bias inFeatures outFeatures positive)) input
      .columnParallel = .ok ((List.range outFeatures).map (outputAt weights bias inFeatures input)) := by
  have forwards := mapM_ok fun place member =>
    columnShard_forward positive full biased wide (mem_range.mp member)
  rw [tensorParallelForward, mapM_map]
  change ((List.range count).mapM _ >>= _) = _
  rw [Function.comp_def, forwards]
  change Except.ok (List.flatten _) = _
  rw [← flatMap_def, Cut.flatMap_slices _ (by rw [length_map, length_range])]

end Column

section Row

variable {rows : Nat}

omit [Semiring R] in
theorem copyColumns_eq {cols offset size : Nat} (full : weights.length = rows * cols) (inside : offset + size ≤ cols) :
    copyColumns weights rows cols offset size =
      .ok ((List.range rows).map fun row => slice weights (row * cols + offset) size).flatten := by
  have copied : ∀ row ∈ List.range rows,
      part Panic.outOfRange weights (row * cols + offset) (row * cols + offset + size) =
        .ok (slice weights (row * cols + offset) size) := by
    intro row member
    have room := row_le (mem_range.mp member) cols
    rw [part_inside (Nat.le_add_right _ _) (by omega), Nat.add_sub_cancel_left]
  rw [copyColumns, mapM_ok copied]
  rfl

omit [Semiring R] in
theorem even_columns {cols offset size : Nat} (full : weights.length = rows * cols) (inside : offset + size ≤ cols) :
    ∀ piece ∈ (List.range rows).map fun row => slice weights (row * cols + offset) size, piece.length = size := by
  intro piece member
  obtain ⟨row, below, rfl⟩ := mem_map.mp member
  have room := row_le (mem_range.mp below) cols
  exact length_slice (by omega)

/-- The shard of a place has the columns of its range. -/
def rowShard (weights : List R) (bias : Option (List R)) (inFeatures outFeatures : Nat) (positive : 0 < count)
    (place : Nat) : ShardedLinear R :=
  let shard := shardAt inFeatures positive .input place
  ⟨((List.range outFeatures).map fun row => slice weights (row * inFeatures + shard.offset) shard.size).flatten,
    if shard.isLastShard then bias else none, shard, inFeatures, outFeatures⟩

omit [Semiring R] in
theorem partitionRowParallel_eq (positive : 0 < count) (full : weights.length = outFeatures * inFeatures) :
    partitionRowParallel weights bias inFeatures outFeatures count =
      .ok ((List.range count).map (rowShard weights bias inFeatures outFeatures positive)) := by
  refine mapM_ok fun place member => ?_
  have inside := (evenCut inFeatures positive).piece_inside (mem_range.mp member)
  rw [new_shardAt positive .input (mem_range.mp member)]
  change (copyColumns weights outFeatures inFeatures ((evenCut inFeatures positive).boundary place)
    ((evenCut inFeatures positive).size place) >>= _) = _
  rw [copyColumns_eq full inside]
  rfl

/-- The part of an output that a shard computes. -/
def partialAt (weights : List R) (bias : Option (List R)) (input : List R) (positive : 0 < count) (place row : Nat) : R :=
  let cut := evenCut input.length positive
  dot (slice (slice weights (row * input.length) input.length) (cut.boundary place) (cut.size place))
    (slice input (cut.boundary place) (cut.size place)) + if place + 1 = count then biasAt bias row else 0

theorem rowShard_forward (positive : 0 < count) (full : weights.length = outFeatures * input.length)
    (biased : ∀ values ∈ bias, values.length = outFeatures) (inside : place < count) :
    (rowShard weights bias input.length outFeatures positive place).forward input =
      .ok ((List.range outFeatures).map (partialAt weights bias input positive place)) := by
  have fits := (evenCut input.length positive).piece_inside inside
  have even := even_columns full fits
  have rows := length_flatten even
  rw [length_map, length_range] at rows
  rw [rowShard, ShardedLinear.forward]
  refine mapM_ok fun row member => ?_
  have below := mem_range.mp member
  simp only [shardAt, partialAt]
  have inner := Nat.mul_le_mul_right ((evenCut input.length positive).size place) (Nat.succ_le_of_lt below)
  rw [Nat.succ_mul, ← rows] at inner
  rw [range_dot inner fits, slice_flatten even (by rw [length_map, length_range]; exact below),
    getElem_map, getElem_range, slice_slice fits]
  change (if place + 1 = count then addBias _ row _ else _) = _
  by_cases last : place + 1 = count
  · have owned : (if (shardAt input.length positive .input place).isLastShard then bias else none) = bias :=
      if_pos last
    rw [if_pos last, if_pos last]
    change addBias (if (shardAt input.length positive .input place).isLastShard then bias else none) row _ = _
    rw [owned, addBias_eq]
    intro values here
    rw [biased values here]
    exact below
  · rw [if_neg last, if_neg last, add_zero]

theorem foldl_addInto {Item : Type} (items : List Item) (term : Item → Nat → R) (start : Nat → R) :
    (items.map fun item => (List.range rows).map (term item)).foldl addInto ((List.range rows).map start) =
      (List.range rows).map fun row => start row + (items.map fun item => term item row).sum := by
  have added (first second : Nat → R) (numbers : List Nat) :
      addInto (numbers.map first) (numbers.map second) = numbers.map fun row => first row + second row := by
    induction numbers with
    | nil => rfl
    | cons number numbers ih => rw [map_cons, map_cons, map_cons, addInto, ih]
  induction items generalizing start with
  | nil => simp
  | cons item items ih =>
      rw [map_cons, foldl_cons, added, ih]
      simp only [map_cons, sum_cons, add_assoc]

theorem sum_partials (positive : 0 < count) (full : weights.length = outFeatures * input.length)
    (below : row < outFeatures) :
    ((List.range count).map fun place => partialAt weights bias input positive place row).sum =
      outputAt weights bias input.length input row := by
  have room := row_le below input.length
  have width : (slice weights (row * input.length) input.length).length = input.length := length_slice (by omega)
  have once : ((List.range count).map fun place => if place + 1 = count then biasAt bias row else 0).sum =
      biasAt bias row := by
    obtain ⟨before, rfl⟩ := Nat.exists_eq_add_one_of_ne_zero (Nat.ne_of_gt positive)
    have none : (List.range before).map (fun place => if place + 1 = before + 1 then biasAt bias row else 0) =
        List.replicate before 0 := by
      rw [eq_replicate_iff]
      refine ⟨by rw [length_map, length_range], fun value member => ?_⟩
      obtain ⟨place, inside, rfl⟩ := mem_map.mp member
      have less := mem_range.mp inside
      rw [if_neg (by omega)]
    rw [List.range_succ, map_append, List.sum_append, none]
    simp
  simp only [partialAt]
  rw [sum_map_add, sum_dot_pieces _ width rfl, once, outputAt]

/-- The shards sum up the outputs of the layer. -/
theorem rowParallel_forward (positive : 0 < count) (full : weights.length = outFeatures * input.length)
    (biased : ∀ values ∈ bias, values.length = outFeatures) :
    tensorParallelForward ((List.range count).map (rowShard weights bias input.length outFeatures positive)) input
      .rowParallel = .ok ((List.range outFeatures).map (outputAt weights bias input.length input)) := by
  have forwards := mapM_ok fun place member =>
    rowShard_forward positive full biased (mem_range.mp member)
  rw [tensorParallelForward, mapM_map]
  change ((List.range count).mapM _ >>= _) = _
  rw [Function.comp_def, forwards]
  change Except.ok (allReduce _) = _
  obtain ⟨before, rfl⟩ := Nat.exists_eq_add_one_of_ne_zero (Nat.ne_of_gt positive)
  rw [range_succ_eq_map, map_cons, allReduce, ← @map_cons _ _ (fun place =>
    (List.range outFeatures).map (partialAt weights bias input positive place)), ← range_succ_eq_map,
    length_map, length_range]
  have zeros : List.replicate outFeatures (0 : R) = (List.range outFeatures).map fun _ => 0 := by
    rw [map_const', length_range]
  rw [zeros, foldl_addInto]
  congr 1
  refine map_congr_left fun row member => ?_
  rw [zero_add, sum_partials positive full (mem_range.mp member)]

end Row

end Layer

end Pictor.Sharding

namespace Pictor.Sharding
open Slice Tiling RowMajor List

variable {R : Type} [Semiring R] {total count : Nat}

/-- The first devices take one more than the others. -/
def spreadCut (total : Nat) (positive : 0 < count) : Cut total count where
  boundary := rankStart total count
  starts := by rw [rankStart, Nat.zero_mul, Nat.zero_min]
  rises := by
    intro place _
    rw [rankStart, rankStart, Nat.succ_mul]
    generalize total / count = base, total % count = remainder
    omega
  ends := by
    have below := Nat.mod_lt total positive
    rw [rankStart, Nat.min_eq_right (Nat.le_of_lt below), Nat.div_add_mod]

theorem spreadCut_size (positive : 0 < count) (place : Nat) :
    (spreadCut total positive).size place = rankSize total count place := by
  change rankStart total count (place + 1) - rankStart total count place = _
  rw [rankStart, rankStart, rankSize, Nat.succ_mul]
  generalize total / count = base, total % count = remainder
  by_cases more : place < remainder
  · rw [if_pos more]
    omega
  · rw [if_neg more]
    omega

section Columns

variable {weights : List R} {rows cols : Nat}

/-- The columns of a device. -/
def columnPiece (weights : List R) (rows : Nat) (positive : 0 < count) (cols place : Nat) : List R :=
  let cut := spreadCut cols positive
  ((List.range rows).map fun row => slice weights (row * cols + cut.boundary place) (cut.size place)).flatten

omit [Semiring R] in
theorem partitionWeightsColumn_eq (positive : 0 < count) (full : weights.length = rows * cols) :
    partitionWeightsColumn weights rows cols count =
      .ok ((List.range count).map (columnPiece weights rows positive cols)) := by
  rw [partitionWeightsColumn, if_neg (Nat.ne_of_gt positive)]
  refine mapM_ok fun place member => ?_
  have inside := (spreadCut cols positive).piece_inside (mem_range.mp member)
  rw [← spreadCut_size positive]
  exact copyColumns_eq full inside

omit [Semiring R] in
theorem partitionWeightsRow_eq (positive : 0 < count) (full : weights.length = rows * cols) :
    ∃ pieces, partitionWeightsRow weights rows cols count = .ok pieces ∧ pieces.flatten = weights := by
  let cut : Cut (rows * cols) count := {
    boundary := fun place => (spreadCut rows positive).boundary place * cols
    starts := by rw [(spreadCut rows positive).starts, Nat.zero_mul]
    rises := fun place inside => Nat.mul_le_mul_right cols ((spreadCut rows positive).rises place inside)
    ends := by rw [(spreadCut rows positive).ends] }
  refine ⟨(List.range count).map fun place => slice weights (cut.boundary place) (cut.size place), ?_, ?_⟩
  · rw [partitionWeightsRow, if_neg (Nat.ne_of_gt positive)]
    refine mapM_ok fun place member => ?_
    have inside := mem_range.mp member
    have stop : (rankStart rows count place + rankSize rows count place) * cols = cut.boundary (place + 1) := by
      rw [← spreadCut_size positive]
      exact congrArg (· * cols) ((spreadCut rows positive).boundary_add_size inside)
    have start : rankStart rows count place * cols = cut.boundary place := rfl
    change part _ weights (rankStart rows count place * cols) _ = _
    rw [stop, start]
    exact part_inside (cut.rises place inside) (by rw [full]; exact cut.boundary_le inside)
  · rw [← flatMap_def, cut.flatMap_slices full]

variable {place : Nat}

omit [Semiring R] in
theorem columnPiece_width (positive : 0 < count) (full : weights.length = rows * cols) (some : 0 < rows)
    (inside : place < count) :
    (columnPiece weights rows positive cols place).length / rows = (spreadCut cols positive).size place := by
  have length := length_flatten (even_columns full ((spreadCut cols positive).piece_inside inside))
  rw [length_map, length_range] at length
  rw [columnPiece, length, Nat.mul_div_cancel_left _ some]

/-- A device copies its columns of each row. -/
theorem paints_mergeShard (positive : 0 < count) (full : weights.length = rows * cols) (some : 0 < rows)
    (inside : place < count) :
    Paints (rows * cols) (Set.preimage (· % cols) (Set.Ico ((spreadCut cols positive).boundary place)
        ((spreadCut cols positive).boundary (place + 1)))) (fun index => weights.getD index 0)
      (fun result => mergeShard rows cols (columnPiece weights rows positive cols place) result
        ((spreadCut cols positive).boundary place)) := by
  have fits := (spreadCut cols positive).piece_inside inside
  have stop := (spreadCut cols positive).boundary_add_size inside
  have even := even_columns full fits
  have length := length_flatten even
  rw [length_map, length_range] at length
  have width := columnPiece_width positive full some inside
  rw [← stop]
  change Paints _ _ _ fun result => mergeShard rows cols (columnPiece weights rows positive cols place) result _
  simp only [mergeShard, width]
  rw [columnPiece]
  generalize (spreadCut cols positive).boundary place = start at *
  generalize (spreadCut cols positive).size place = size at *
  have wide : ∀ index < rows * cols, 0 < cols := fun index below => Nat.pos_of_lt_mul_left below
  have loop := @Paints.range _ _ (rows * cols) (fun index => weights.getD index 0)
    (Set.preimage (· % cols) (Set.Ico start (start + size))) (· / cols)
    (fun result row => do
      let source ← part Panic.outOfRange ((List.range rows).map fun row => slice weights (row * cols + start) size).flatten
        (row * size) (row * size + size)
      onPart .outOfRange (row * cols + start) (row * cols + start + size) (copyOver .lengthMismatch source) result) 0 rows ?_
  · refine loop.congr (fun index below => ?_) fun _ _ _ => rfl
    have quotient := (Nat.div_lt_iff_lt_mul (wide index below)).mpr below
    rw [Set.mem_inter_iff, and_iff_left]
    exact ⟨Nat.zero_le _, by rwa [Nat.zero_add]⟩
  · intro row below
    have room := Nat.mul_le_mul_right cols (Nat.succ_le_of_lt below)
    have room' := Nat.mul_le_mul_right size (Nat.succ_le_of_lt below)
    rw [Nat.succ_mul] at room room'
    have source : part Panic.outOfRange
        ((List.range rows).map fun row => slice weights (row * cols + start) size).flatten
        (row * size) (row * size + size) = .ok (slice weights (row * cols + start) size) := by
      rw [part_inside (Nat.le_add_right _ _) (by omega), Nat.add_sub_cancel_left,
        slice_flatten even (by rw [length_map, length_range]; exact below), getElem_map,
        getElem_range]
    simp only [source]
    have copied : Paints (row * cols + start + size - (row * cols + start)) Set.univ
        (fun index => weights.getD (row * cols + start + index) 0)
        (copyOver Panic.lengthMismatch (slice weights (row * cols + start) size)) := by
      rw [Nat.add_sub_cancel_left]
      refine Paints.copyOver ?_ fun index less => ?_
      · exact length_slice (by omega)
      · rw [getElem?_slice, if_pos less]
        exact getElem?_getD 0 (by omega)
    refine (copied.part (Nat.le_add_right _ _) (by omega)).congr (fun index inner => ?_) fun _ _ _ => rfl
    simp only [Set.mem_inter_iff, Set.mem_preimage, Set.mem_Ico, Set.mem_singleton_iff, Nat.zero_add]
    constructor
    · rintro ⟨above, before⟩
      have unique : index / cols = row ∧ index % cols = index - row * cols := by
        rw [Nat.div_mod_unique (wide index inner), Nat.mul_comm cols row]
        omega
      rw [unique.1, unique.2]
      omega
    · rintro ⟨⟨above, before⟩, same⟩
      have split := Nat.div_add_mod index cols
      rw [same, Nat.mul_comm] at split
      generalize index % cols = column at split above before
      omega

/-- The merge of the columns of all devices returns the weights. -/
theorem mergeColumnShards_eq (positive : 0 < count) (full : weights.length = rows * cols) (some : 0 < rows)
    (wide : 0 < cols) :
    mergeColumnShards ((List.range count).map (columnPiece weights rows positive cols)) rows = .ok weights := by
  have widths : (((List.range count).map (columnPiece weights rows positive cols)).map
      fun shard => shard.length / rows).sum = cols := by
    rw [map_map, Function.comp_def, map_congr_left fun place member =>
      columnPiece_width positive full some (mem_range.mp member)]
    exact (spreadCut cols positive).sum_sizes
  have nonempty : ¬ ((List.range count).map (columnPiece weights rows positive cols) = [] ∨ rows = 0) := by
    rw [map_eq_nil_iff, range_eq_nil]
    omega
  rw [mergeColumnShards, if_neg nonempty]
  simp only [widths]
  have copied : ∀ last ≤ count,
      ((List.range last).map (columnPiece weights rows positive cols)).foldlM (fun state shard => do
        let result ← mergeShard rows cols shard state.1 state.2
        return (result, state.2 + shard.length / rows)) (List.replicate (rows * cols) 0, 0) =
          .ok (paint (Set.preimage (· % cols) (Set.Ico 0 ((spreadCut cols positive).boundary last)))
            (fun index => weights.getD index 0) (List.replicate (rows * cols) 0),
              (spreadCut cols positive).boundary last) := by
    intro last inside
    induction last with
    | zero =>
        rw [(spreadCut cols positive).starts, Set.Ico_self, Set.preimage_empty, paint_empty]
        rfl
    | succ last ih =>
        have below : last < count := by omega
        have grown : Set.Ico 0 ((spreadCut cols positive).boundary last) ∪
            Set.Ico ((spreadCut cols positive).boundary last) ((spreadCut cols positive).boundary (last + 1)) =
              Set.Ico 0 ((spreadCut cols positive).boundary (last + 1)) :=
          Set.Ico_union_Ico_eq_Ico (Nat.zero_le _) ((spreadCut cols positive).rises last below)
        have merged := paints_mergeShard positive full some below
          (paint (Set.preimage (· % cols) (Set.Ico 0 ((spreadCut cols positive).boundary last)))
            (fun index => weights.getD index 0) (List.replicate (rows * cols) 0))
          (by rw [length_paint, length_replicate])
        rw [paint_paint, ← Set.preimage_union, grown] at merged
        rw [List.range_succ, map_append, foldlM_append, ih (by omega)]
        change (mergeShard rows cols _ _ _ >>= fun result => Except.ok (result, _)) >>= pure = _
        rw [bind_pure]
        change (fun result => mergeShard rows cols _ result _) _ >>= _ = _
        rw [merged]
        change Except.ok (_, _) = _
        rw [columnPiece_width positive full some below, (spreadCut cols positive).boundary_add_size below]
  rw [copied count (Nat.le_refl count), (spreadCut cols positive).ends]
  change Except.ok (paint _ _ _) = _
  congr 1
  ext1 index
  rw [getElem?_paint, length_replicate]
  by_cases inside : index < rows * cols
  · rw [if_pos ⟨inside, Nat.zero_le _, Nat.mod_lt index wide⟩]
    exact (getElem?_getD 0 (by omega)).symm
  · rw [if_neg fun both => inside both.1, getElem?_eq_none (by rw [length_replicate]; omega),
      getElem?_eq_none (by omega)]

end Columns

/-- The outputs of a dense layer, with exact arithmetic. -/
def dense {outFeatures inFeatures : Nat} (weights : Matrix (Fin outFeatures) (Fin inFeatures) R)
    (bias : Option (Fin outFeatures → R)) (input : Fin inFeatures → R) : Fin outFeatures → R :=
  weights.mulVec input + bias.getD 0

theorem outputs_dense {outFeatures inFeatures : Nat} (weights : Matrix (Fin outFeatures) (Fin inFeatures) R)
    (bias : Option (Fin outFeatures → R)) (input : Fin inFeatures → R) :
    (List.range outFeatures).map (outputAt (flat weights) (bias.map List.ofFn) inFeatures (List.ofFn input)) =
      List.ofFn (dense weights bias input) := by
  apply ext_getElem
  · rw [length_map, length_range, length_ofFn]
  · intro row below below'
    have inside : row < outFeatures := by rwa [length_ofFn] at below'
    rw [getElem_map, getElem_range, List.getElem_ofFn, outputAt, slice_flat weights ⟨row, inside⟩, dot_ofFn]
    change _ = weights.mulVec input ⟨row, inside⟩ + bias.getD 0 ⟨row, inside⟩
    congr 1
    cases bias with
    | none => rfl
    | some values =>
        change ((List.ofFn values)[row]?).getD 0 = values ⟨row, inside⟩
        rw [getElem?_eq_getElem (by rwa [length_ofFn]), Option.getD_some, List.getElem_ofFn]

/-- A layer that is split over shards equals the dense layer, and partitioned weights are put together again. -/
theorem tensorParallel_dense {outFeatures inFeatures numShards : Nat} (positive : 1 ≤ numShards)
    (weights : Matrix (Fin outFeatures) (Fin inFeatures) R) (bias : Option (Fin outFeatures → R))
    (input : Fin inFeatures → R) {rows cols : Nat} (tall : 1 ≤ rows) (wide : 1 ≤ cols) {stored : List R}
    (full : stored.length = rows * cols) :
    (∃ shards, partitionColumnParallel (flat weights) (bias.map List.ofFn) inFeatures outFeatures numShards = .ok shards ∧
      PartitionsIndices (shards.map ShardedLinear.shard) outFeatures ∧
      tensorParallelForward shards (List.ofFn input) .columnParallel = .ok (List.ofFn (dense weights bias input))) ∧
    (∃ shards, partitionRowParallel (flat weights) (bias.map List.ofFn) inFeatures outFeatures numShards = .ok shards ∧
      PartitionsIndices (shards.map ShardedLinear.shard) inFeatures ∧
      tensorParallelForward shards (List.ofFn input) .rowParallel = .ok (List.ofFn (dense weights bias input))) ∧
    (∃ pieces, partitionWeightsColumn stored rows cols numShards = .ok pieces ∧
      mergeColumnShards pieces rows = .ok stored) ∧
    ∃ pieces, partitionWeightsRow stored rows cols numShards = .ok pieces ∧ pieces.flatten = stored := by
  have biased : ∀ values ∈ bias.map List.ofFn, values.length = outFeatures := by
    intro values here
    obtain ⟨_, _, rfl⟩ := Option.map_eq_some_iff.mp here
    exact length_ofFn
  refine ⟨⟨_, partitionColumnParallel_eq positive (length_flat weights) biased, ?_, ?_⟩,
    ⟨_, partitionRowParallel_eq positive (length_flat weights), ?_, ?_⟩,
    ⟨_, partitionWeightsColumn_eq positive full, mergeColumnShards_eq positive full tall wide⟩,
    partitionWeightsRow_eq positive full⟩
  · rw [map_map]
    exact shards_partition positive .output
  · rw [columnParallel_forward positive (length_flat weights) biased length_ofFn, outputs_dense]
  · rw [map_map]
    exact shards_partition positive .input
  · have same : (List.ofFn input).length = inFeatures := length_ofFn
    have forward := @rowParallel_forward _ _ _ (flat weights) (List.ofFn input) (bias.map List.ofFn) outFeatures positive
      (by rw [same]; exact length_flat weights) biased
    rw [same, outputs_dense] at forward
    exact forward

/-- Three shards split two rows and two columns, so that some shards are empty. -/
theorem threeShards_dense :
    let weights : Matrix (Fin 2) (Fin 2) ℤ := fun row col => 2 * row + col
    let bias : Fin 2 → ℤ := fun row => row - 3
    let input : Fin 2 → ℤ := fun col => 7 + col
    (∃ shards, partitionColumnParallel [0, 1, 2, 3] (some [-3, -2]) 2 2 3 = .ok shards ∧
      PartitionsIndices (shards.map ShardedLinear.shard) 2 ∧
      tensorParallelForward shards [7, 8] .columnParallel = .ok (List.ofFn (dense weights (some bias) input))) ∧
    (∃ shards, partitionRowParallel [0, 1, 2, 3] (some [-3, -2]) 2 2 3 = .ok shards ∧
      PartitionsIndices (shards.map ShardedLinear.shard) 2 ∧
      tensorParallelForward shards [7, 8] .rowParallel = .ok (List.ofFn (dense weights (some bias) input))) ∧
    (∃ pieces, partitionWeightsColumn [1, 2, 3, 4] 1 4 3 = .ok pieces ∧
      mergeColumnShards pieces 1 = .ok [(1 : ℤ), 2, 3, 4]) ∧
    ∃ pieces, partitionWeightsRow [(1 : ℤ), 2, 3, 4] 1 4 3 = .ok pieces ∧ pieces.flatten = [1, 2, 3, 4] := by
  intro weights bias input
  exact @tensorParallel_dense ℤ _ 2 2 3 (by decide) weights (some bias) input 1 4 (by decide) (by decide) _ rfl

end Pictor.Sharding
