import Pictor.Proof.Kernels.DirectValues

namespace Pictor.Kernels
open Slice Tiling

variable {Block Scalar : Type} {dot : RowDot Block Scalar} {blocks : List Block} {input : List Scalar}
  {blockSize m nRows rows start k length : Nat} {shortBlocks : ShortBlocks}

section Gemv

variable (aligned : k % qk1_0G128 = 0) (inputs : k ≤ input.length) (fits : nRows * (k / qk1_0G128) < 2 ^ 64)
  (inside : nRows * (k / qk1_0G128) ≤ blocks.length)
include aligned inputs fits inside

variable {tileRows : Nat}

theorem gemvTiles_paints (positive : 0 < tileRows) (outputs : nRows ≤ length) :
    Paints length (Set.Iio nRows) (gemvValue dot blocks input (k / qk1_0G128) k)
      (gemvTiles dot tileRows positive blocks input (k / qk1_0G128) nRows k) := by
  have whole : Set.Iio nRows = Set.univ ∩ Set.preimage id (Set.Ico 0 nRows) := by
    ext row
    simp
  rw [whole]
  refine Paints.tiles positive (Nat.zero_le nRows) fun rowStart rows below _ => ?_
  rw [Set.univ_inter, part_rows below inside]
  refine Paints.part ?_ (Nat.le_add_right rowStart rows) (by omega)
  rw [Nat.add_sub_cancel_left]
  exact gemvKernel_rows aligned inputs fits inside below

theorem gemvChunks_paints (positive : 0 < tileRows) (outputs : nRows ≤ length) :
    Paints length (Set.Iio nRows) (gemvValue dot blocks input (k / qk1_0G128) k)
      (gemvChunks dot tileRows positive blocks input (k / qk1_0G128) nRows k) := by
  have whole : Set.Iio nRows = Set.Ico 0 nRows := by
    ext row
    simp
  rw [whole]
  refine Paints.part ?_ (Nat.zero_le nRows) outputs
  refine Paints.chunks (by decide) fun tileIdx below => ?_
  rw [Nat.sub_zero] at below ⊢
  have within : tileIdx * l2TileRows + min l2TileRows (nRows - tileIdx * l2TileRows) ≤ nRows := by omega
  intro outChunk full
  rw [← full] at within
  have weights : outChunk.length * (k / qk1_0G128) ≤ nRows * (k / qk1_0G128) := Nat.mul_le_mul_right _ (by omega)
  change (part _ blocks (tileIdx * l2TileRows * (k / qk1_0G128))
    ((tileIdx * l2TileRows + outChunk.length) * (k / qk1_0G128)) >>= fun tileBlocks =>
      gemvTiles dot tileRows positive tileBlocks input (k / qk1_0G128) outChunk.length k outChunk) = _
  rw [part_rows within inside]
  change gemvTiles dot tileRows positive _ input _ _ k outChunk = _
  rw [gemvTiles_paints aligned inputs (by omega) (by rw [length_rows within inside]) positive
    (Nat.le_refl _) outChunk rfl]
  congr 1
  refine paint_congr (fun row below => iff_of_true below trivial) fun row below _ => ?_
  rw [gemvValue, gemvValue, slice_rows below, Nat.zero_add]

end Gemv

section Gemm

variable (aligned : k % qk1_0G128 = 0) (inputs : m * k ≤ input.length) (small : m * k < 2 ^ 64)
  (short : m * nRows < 2 ^ 64) (fits : nRows * (k / qk1_0G128) < 2 ^ 64)
  (inside : nRows * (k / qk1_0G128) ≤ blocks.length)
include aligned inputs small short fits inside

theorem gemmTiles_paints (outputs : m * nRows ≤ length) :
    Paints length (Set.Iio (m * nRows)) (gemmValue dot blocks input (k / qk1_0G128) nRows k)
      (tiles gemmBatchTile (by decide) m (fun batchStart batchTile output =>
        tiles l1TileRows (by decide) nRows (fun rowStart tileRows output =>
          (List.range batchTile).foldlM (fun output bi => do
            let mi := batchStart + bi
            let tileBlocks ← part KernelFailure.panic blocks (rowStart * (k / qk1_0G128))
              ((rowStart + tileRows) * (k / qk1_0G128))
            let inputRow ← part .panic input (mi * k) (mi * k + k)
            let outputOffset := mi * nRows + rowStart
            onPart .panic outputOffset (outputOffset + tileRows)
              (fun tile => Dispatcher.gemm dot tileBlocks inputRow tile 1 tileRows k) output) output) 0 output) 0) := by
  rw [grid, Nat.zero_add, Nat.zero_add]
  refine Paints.tiles _ (Nat.zero_le m) fun batchStart batchTile lastBatch _ => ?_
  rw [Set.inter_comm]
  refine Paints.tiles _ (Nat.zero_le nRows) fun rowStart tileRows lastRow _ => ?_
  rw [Set.inter_comm]
  refine Paints.range batchStart batchTile fun bi below => ?_
  have row : batchStart + bi < m := by omega
  have last := row_le row nRows
  rw [← band lastRow]
  change Paints length _ _ fun output => (part _ blocks (rowStart * (k / qk1_0G128))
    ((rowStart + tileRows) * (k / qk1_0G128)) >>= fun tileBlocks =>
      part _ input ((batchStart + bi) * k) ((batchStart + bi) * k + k) >>= fun inputRow =>
        onPart _ ((batchStart + bi) * nRows + rowStart) ((batchStart + bi) * nRows + rowStart + tileRows)
          (fun tile => Dispatcher.gemm dot tileBlocks inputRow tile 1 tileRows k) output)
  rw [part_rows lastRow inside, ← Nat.succ_mul, part_row row inputs]
  refine Paints.part ?_ (Nat.le_add_right _ tileRows) (by omega)
  rw [Nat.add_sub_cancel_left]
  exact gemmKernel_rows aligned row inputs small short fits inside lastRow

theorem gemmChunks_paints (positive : 0 < tileRows) (rows : 0 < nRows) (outputs : m * nRows ≤ length) :
    Paints length (Set.Iio (m * nRows)) (gemmValue dot blocks input (k / qk1_0G128) nRows k)
      (gemmChunks dot tileRows positive blocks input (k / qk1_0G128) m nRows k) := by
  have whole : Set.Iio (m * nRows) = Set.Ico 0 (m * nRows) := by
    ext row
    simp
  rw [whole]
  refine Paints.part ?_ (Nat.zero_le _) outputs
  refine Paints.chunks rows fun mi below => ?_
  rw [Nat.sub_zero] at below ⊢
  have row : mi < m := Nat.lt_of_mul_lt_mul_right below
  have last := row_le row nRows
  have full : min nRows (m * nRows - mi * nRows) = nRows := by omega
  rw [full]
  have all : ∀ place < nRows, place ∈ Set.univ ∩ Set.preimage id (Set.Ico 0 nRows) ↔ place ∈ Set.univ :=
    fun place below => iff_of_true ⟨trivial, Nat.zero_le place, below⟩ trivial
  refine Paints.congr ?_ all fun _ _ _ => rfl
  refine Paints.tiles positive (Nat.zero_le nRows) fun rowStart rows lastRow _ => ?_
  rw [Set.univ_inter, part_rows lastRow inside]
  change Paints nRows _ _ fun outRow => (part _ input (mi * k) (mi * k + k) >>= fun inputRow =>
    onPart _ rowStart (rowStart + rows)
      (fun tile => Dispatcher.gemm dot _ inputRow tile 1 rows k) outRow)
  rw [← Nat.succ_mul, part_row row inputs]
  refine Paints.part ?_ (Nat.le_add_right _ rows) (by omega)
  rw [Nat.add_sub_cancel_left]
  refine Paints.congr (gemmKernel_rows aligned row inputs small short fits inside lastRow)
    (fun _ _ => Iff.rfl) fun place _ _ => ?_
  rw [Nat.zero_add, Nat.add_assoc]

end Gemm

end Pictor.Kernels

namespace Pictor.Kernels
open Slice Tiling List

variable {Block Scalar : Type} {dot : RowDot Block Scalar} {blocks : List Block} {input output : List Scalar}
  {blockSize m nRows k length : Nat} {shortBlocks short : ShortBlocks}

/-- The rows of a parallel matrix-vector product write the values of the product. -/
theorem gemvPar_settles :
    Settles (GemvFits blockSize input output nRows k) (GemvAccepted blockSize blocks input output nRows k)
      (gemvPar (gemvKernel dot blockSize short) blockSize shortBlocks blocks input output nRows k)
      (paint (Set.Iio nRows) (gemvValue dot blocks input (k / blockSize) k) output) := by
  refine (checkGemv_settles blockSize shortBlocks blocks input output nRows k).andThen fun fits accept => ?_
  by_cases few : nRows < parGemvMinRows
  · rw [if_pos few]
    exact (gemvKernel_settles output).answers fits accept
  · rw [if_neg few]
    have whole : Set.Iio nRows = Set.Ico 0 nRows := by
      ext row
      simp
    rw [whole]
    refine Paints.part ?_ (Nat.zero_le nRows) accept.outputs output rfl
    refine Paints.chunks Nat.one_pos fun row below => ?_
    rw [Nat.sub_zero, Nat.mul_one] at below ⊢
    rw [Nat.min_eq_left (by omega), part_rows below accept.rows]
    refine Paints.congr (gemvKernel_rows accept.aligned accept.inputs
      (fits accept.aligned accept.inputs accept.outputs) accept.rows below) (fun _ _ => Iff.rfl) fun place _ _ => ?_
    rw [Nat.zero_add]

theorem gemvTiled_settles :
    Settles (GemvFits qk1_0G128 input output nRows k) (GemvAccepted qk1_0G128 blocks input output nRows k)
      (gemvTiled dot blocks input output nRows k)
      (paint (Set.Iio nRows) (gemvValue dot blocks input (k / qk1_0G128) k) output) :=
  (checkGemv_settles qk1_0G128 _ blocks input output nRows k).andThen fun fits accept =>
    gemvTiles_paints accept.aligned accept.inputs (fits accept.aligned accept.inputs accept.outputs) accept.rows _
      accept.outputs output rfl

theorem gemvTiledPar_settles :
    Settles (GemvFits qk1_0G128 input output nRows k) (GemvAccepted qk1_0G128 blocks input output nRows k)
      (gemvTiledPar dot blocks input output nRows k)
      (paint (Set.Iio nRows) (gemvValue dot blocks input (k / qk1_0G128) k) output) := by
  refine (checkGemv_settles qk1_0G128 _ blocks input output nRows k).andThen fun fits accept => ?_
  by_cases few : nRows < parTiledGemvMinRows
  · rw [if_pos few]
    exact gemvTiled_settles.answers fits accept
  · rw [if_neg few]
    exact gemvChunks_paints accept.aligned accept.inputs (fits accept.aligned accept.inputs accept.outputs)
      accept.rows _ accept.outputs output rfl

/-- The tile size is computed without an overflow. -/
theorem optimalTileRows_ok (small : k * 4 < 2 ^ 64) : ∃ rows, optimalTileRows k = .ok rows := by
  rw [optimalTileRows, sizeMul, if_pos small]
  exact ⟨_, rfl⟩

theorem gemvParallelTiled_settles (addressable : input.length * 4 < 2 ^ 63) :
    Settles (GemvFits qk1_0G128 input output nRows k) (GemvAccepted qk1_0G128 blocks input output nRows k)
      (gemvParallelTiled dot blocks input output nRows k)
      (paint (Set.Iio nRows) (gemvValue dot blocks input (k / qk1_0G128) k) output) := by
  refine (checkGemv_settles qk1_0G128 _ blocks input output nRows k).andThen fun fits accept => ?_
  by_cases few : nRows < parTiledMinRows
  · rw [if_pos few]
    exact gemvTiled_settles.answers fits accept
  · have inputs := accept.inputs
    obtain ⟨l1Tile, chosen⟩ := @optimalTileRows_ok k (by omega)
    rw [if_neg few, chosen]
    exact gemvChunks_paints accept.aligned accept.inputs (fits accept.aligned accept.inputs accept.outputs)
      accept.rows _ accept.outputs output rfl

theorem gemvAdaptive_settles (addressable : input.length * 4 < 2 ^ 63) :
    Settles (GemvFits qk1_0G128 input output nRows k) (GemvAccepted qk1_0G128 blocks input output nRows k)
      (gemvAdaptive dot blocks input output nRows k)
      (paint (Set.Iio nRows) (gemvValue dot blocks input (k / qk1_0G128) k) output) := by
  rw [gemvAdaptive]
  cases selectGemvStrategy nRows k with
  | direct => exact gemvKernel_settles output
  | parallelRow => exact gemvPar_settles
  | parallelTiled => exact gemvParallelTiled_settles addressable

theorem gemmTiled_settles :
    Settles (GemmFits qk1_0G128 input output m nRows k) (GemmAccepted qk1_0G128 blocks input output m nRows k)
      (gemmTiled dot blocks input output m nRows k)
      (paint (Set.Iio (m * nRows)) (gemmValue dot blocks input (k / qk1_0G128) nRows k) output) :=
  (checkGemm_settles qk1_0G128 _ blocks input output m nRows k).andThen fun fits accept =>
    gemmTiles_paints accept.aligned accept.inputs (fits.1 accept.aligned).1 ((fits.1 accept.aligned).2 accept.inputs)
      (fits.2 accept.toGemmBuffersAccepted) accept.rows accept.outputs output rfl

/-- Output rows of no elements are no chunks. -/
theorem settles_unlessEmpty {next : Nat → KernelResult (List Scalar)} {answer : List Scalar}
    (empty : GemmFits blockSize input output m nRows k → nRows = 0 → 4 ≤ m → k % blockSize = 0 →
      next (k / blockSize) = .error .panic)
    (run : GemmFits blockSize input output m nRows k → GemmAccepted blockSize blocks input output m nRows k →
      ¬(nRows = 0 ∧ 4 ≤ m) → next (k / blockSize) = .ok answer) :
    Settles (GemmFits blockSize input output m nRows k ∧ ¬GemmEmptyRows blockSize input m nRows k)
      (GemmAccepted blockSize blocks input output m nRows k)
      (checkGemm blockSize shortBlocks blocks input output m nRows k >>= next) answer := by
  have checks := checkGemm_settles blockSize shortBlocks blocks input output m nRows k
  constructor
  case panics =>
    intro unfit
    by_cases fits : GemmFits blockSize input output m nRows k
    · have rows : GemmEmptyRows blockSize input m nRows k := by tauto
      have accept : GemmAccepted blockSize blocks input output m nRows k := by
        refine ⟨⟨rows.aligned, rows.inputs, ?_⟩, ?_⟩ <;> simp [rows.noRows]
      rw [checks.answers fits accept]
      exact empty fits rows.noRows rows.batch rows.aligned
    · rw [checks.panics fits]
      rfl
  case refuses =>
    intro fits refused
    obtain ⟨error, failed⟩ := checks.refuses fits.1 refused
    rw [failed]
    exact ⟨error, rfl⟩
  case answers =>
    intro fits accept
    rw [checks.answers fits.1 accept]
    exact run fits.1 accept fun ⟨noRows, batch⟩ => fits.2 ⟨noRows, batch, accept.aligned, accept.inputs⟩

theorem onPart_chunks_empty {work : Nat → List Scalar → KernelResult (List Scalar)} (noRows : nRows = 0) :
    onPart .panic 0 (m * nRows) (chunks .panic nRows work) output = .error .panic := by
  subst noRows
  exact onPart_error (Nat.zero_le _) (Nat.zero_le _) rfl

theorem gemmTiledPar_settles :
    Settles (GemmFits qk1_0G128 input output m nRows k ∧ ¬GemmEmptyRows qk1_0G128 input m nRows k)
      (GemmAccepted qk1_0G128 blocks input output m nRows k) (gemmTiledPar dot blocks input output m nRows k)
      (paint (Set.Iio (m * nRows)) (gemmValue dot blocks input (k / qk1_0G128) nRows k) output) := by
  refine settles_unlessEmpty (fun _ noRows batch _ => ?_) fun fits accept some => ?_
  · have many : ¬m < parTiledGemmMinBatch := Nat.not_lt.mpr batch
    rw [if_neg many]
    exact onPart_chunks_empty noRows
  · by_cases few : m < parTiledGemmMinBatch
    · rw [if_pos few]
      exact gemmTiled_settles.answers fits accept
    · have rows : 0 < nRows := Nat.pos_of_ne_zero fun noRows => some ⟨noRows, Nat.not_lt.mp few⟩
      rw [if_neg few]
      exact gemmChunks_paints accept.aligned accept.inputs (fits.1 accept.aligned).1
        ((fits.1 accept.aligned).2 accept.inputs) (fits.2 accept.toGemmBuffersAccepted) accept.rows _ rows
        accept.outputs output rfl

theorem gemmParallelTiled_settles :
    Settles (GemmFits qk1_0G128 input output m nRows k ∧ ¬GemmEmptyRows qk1_0G128 input m nRows k)
      (GemmAccepted qk1_0G128 blocks input output m nRows k) (gemmParallelTiled dot blocks input output m nRows k)
      (paint (Set.Iio (m * nRows)) (gemmValue dot blocks input (k / qk1_0G128) nRows k) output) := by
  have chosen : GemmFits qk1_0G128 input output m nRows k → k % qk1_0G128 = 0 → 4 ≤ m →
      ∃ rows, optimalTileRows k = .ok rows := by
    intro fits aligned batch
    have small := (fits.1 aligned).1
    have four : 4 * k ≤ m * k := Nat.mul_le_mul_right k batch
    exact optimalTileRows_ok (by omega)
  refine settles_unlessEmpty (fun fits noRows batch aligned => ?_) fun fits accept some => ?_
  · obtain ⟨l1Tile, tile⟩ := chosen fits aligned batch
    have many : ¬m < parTiledMinBatch := Nat.not_lt.mpr batch
    rw [if_neg many, tile]
    exact onPart_chunks_empty noRows
  · by_cases few : m < parTiledMinBatch
    · rw [if_pos few]
      exact gemmTiled_settles.answers fits accept
    · have rows : 0 < nRows := Nat.pos_of_ne_zero fun noRows => some ⟨noRows, Nat.not_lt.mp few⟩
      obtain ⟨l1Tile, tile⟩ := chosen fits accept.aligned (Nat.not_lt.mp few)
      rw [if_neg few, tile]
      exact gemmChunks_paints accept.aligned accept.inputs (fits.1 accept.aligned).1
        ((fits.1 accept.aligned).2 accept.inputs) (fits.2 accept.toGemmBuffersAccepted) accept.rows _ rows
        accept.outputs output rfl

variable {gemm : Gemm Block Scalar}

/-- The input rows of a parallel matrix product write the values of the product. -/
theorem gemmRowsPar_answers (answers : GemmAnswers dot gemm blockSize)
    (fits : GemmFits blockSize input output m nRows k) (accept : GemmAccepted blockSize blocks input output m nRows k)
    (some : ¬(nRows = 0 ∧ 4 ≤ m)) : gemmRowsPar gemm blocks input output m nRows k =
      .ok (paint (Set.Iio (m * nRows)) (gemmValue dot blocks input (k / blockSize) nRows k) output) := by
  rw [gemmRowsPar]
  by_cases few : m < parGemmMinBatch
  · rw [if_pos few]
    exact answers _ _ _ _ _ _ fits accept
  · have rows : 0 < nRows := Nat.pos_of_ne_zero fun noRows => some ⟨noRows, Nat.not_lt.mp few⟩
    have whole : Set.Iio (m * nRows) = Set.Ico 0 (m * nRows) := by
      ext index
      simp
    rw [if_neg few, whole]
    refine Paints.part ?_ (Nat.zero_le _) accept.outputs output rfl
    refine Paints.chunks rows fun mi below => ?_
    rw [Nat.sub_zero] at below ⊢
    have row : mi < m := Nat.lt_of_mul_lt_mul_right below
    have last := row_le row nRows
    rw [part_row row accept.inputs, Nat.min_eq_left (by omega)]
    intro outRow full
    have full' := length_row row accept.inputs
    have small := fits.1 accept.aligned
    have one : k ≤ m * k := Nat.le_mul_of_pos_left k (Nat.zero_lt_of_lt row)
    have one' : nRows ≤ m * nRows := Nat.le_mul_of_pos_left nRows (Nat.zero_lt_of_lt row)
    change gemm blocks _ outRow 1 nRows k = _
    rw [answers blocks _ outRow 1 nRows k
      ⟨fun _ => ⟨by omega, fun _ => by have := small.2 accept.inputs; omega⟩,
        fun _ => fits.2 accept.toGemmBuffersAccepted⟩
      ⟨⟨accept.aligned, by omega, by omega⟩, accept.rows⟩]
    congr 1
    refine paint_congr (fun place below => ?_) fun place within _ => ?_
    · rw [full] at below
      refine iff_of_true ?_ trivial
      rw [Set.mem_Iio]
      omega
    · rw [full] at within
      obtain ⟨_, div⟩ := (@mem_band nRows nRows 0 (mi * nRows + place) mi (by omega)).mp (by omega)
      rw [gemmValue, gemmValue, Nat.zero_add, div, Nat.mul_comm mi nRows, Nat.mul_add_mod,
        Nat.mod_eq_of_lt within, Nat.div_eq_of_lt within, Nat.zero_mul, slice_slice (by omega), Nat.add_zero]

theorem gemmPar_settles (answers : GemmAnswers dot gemm blockSize) :
    Settles (GemmFits blockSize input output m nRows k ∧ ¬GemmEmptyRows blockSize input m nRows k)
      (GemmAccepted blockSize blocks input output m nRows k)
      (gemmPar gemm blockSize shortBlocks blocks input output m nRows k)
      (paint (Set.Iio (m * nRows)) (gemmValue dot blocks input (k / blockSize) nRows k) output) := by
  refine settles_unlessEmpty (fun _ noRows batch _ => ?_) fun fits accept some => gemmRowsPar_answers answers fits accept some
  have many : ¬m < parGemmMinBatch := Nat.not_lt.mpr batch
  rw [gemmRowsPar, if_neg many]
  exact onPart_chunks_empty noRows

section Unchecked

variable (fits : GemmBuffersFit blockSize input m nRows k)
  (accept : GemmBuffersAccepted blockSize input output m nRows k)
include fits accept

/-- A product of the first input row alone settles by the blocks. -/
theorem gemmKernel_first (some : 0 < m) (outRow : List Scalar) (full : outRow.length = nRows) :
    Settles (nRows * (k / blockSize) < 2 ^ 64) (nRows * (k / blockSize) ≤ blocks.length)
      (gemmKernel dot blockSize short blocks (slice input 0 k) outRow 1 nRows k)
      (paint (Set.Iio (1 * nRows)) (gemmValue dot blocks (slice input 0 k) (k / blockSize) nRows k) outRow) := by
  have small := fits accept.aligned
  have one : k ≤ m * k := Nat.le_mul_of_pos_left k some
  have one' : nRows ≤ m * nRows := Nat.le_mul_of_pos_left nRows some
  have inputs := accept.inputs
  have full' : (slice input 0 k).length = k := length_slice (by omega)
  have buffers : GemmBuffersAccepted blockSize (slice input 0 k) outRow 1 nRows k :=
    ⟨accept.aligned, by omega, by omega⟩
  refine (gemmKernel_settles outRow).congr ?_ fun _ => ?_
  · exact ⟨fun fine => fine.2 buffers,
      fun fine => ⟨fun _ => ⟨by omega, fun _ => by have := small.2 inputs; omega⟩, fun _ => fine⟩⟩
  · exact ⟨fun fine => fine.rows, fun fine => ⟨buffers, fine⟩⟩

omit fits in
/-- Parallel input rows fail if the first one does. -/
theorem gemmRowsPar_error {failure : KernelFailure} (many : ¬m < parGemmMinBatch) (rows : 0 < nRows)
    (failed : gemm blocks (slice input 0 k) (slice output 0 nRows) 1 nRows k = .error failure) :
    gemmRowsPar gemm blocks input output m nRows k = .error failure := by
  have some : 0 < m := Nat.lt_of_lt_of_le (by decide) (Nat.not_lt.mp many)
  have outputs := accept.outputs
  have one' : nRows ≤ m * nRows := Nat.le_mul_of_pos_left nRows some
  rw [gemmRowsPar, if_neg many]
  refine onPart_error (Nat.zero_le _) outputs (chunks_error rows ?_ ?_)
  · rw [length_slice (by omega)]
    omega
  · rw [part_row some accept.inputs, Nat.zero_mul, slice_slice (by omega)]
    exact failed

/-- The blocks alone decide about input rows with accepted buffers. -/
theorem gemmRowsPar_settles :
    Settles (nRows * (k / blockSize) < 2 ^ 64 ∧ ¬(nRows = 0 ∧ 4 ≤ m)) (nRows * (k / blockSize) ≤ blocks.length)
      (gemmRowsPar (gemmKernel dot blockSize short) blocks input output m nRows k)
      (paint (Set.Iio (m * nRows)) (gemmValue dot blocks input (k / blockSize) nRows k) output) := by
  have whole : nRows * (k / blockSize) < 2 ^ 64 → GemmFits blockSize input output m nRows k :=
    fun fine => ⟨fits, fun _ => fine⟩
  by_cases many : m < parGemmMinBatch
  · have direct := @gemmKernel_settles _ _ dot blocks input blockSize m nRows k short output
    rw [gemmRowsPar, if_pos many]
    refine direct.congr ?_ fun _ => ⟨fun fine => fine.rows, fun fine => ⟨accept, fine⟩⟩
    exact ⟨fun fine => ⟨fine.2 accept, fun empty => Nat.not_le.mpr many empty.2⟩, fun fine => whole fine.1⟩
  · have some : 0 < m := Nat.lt_of_lt_of_le (by decide) (Nat.not_lt.mp many)
    have outputs := accept.outputs
    have one' : nRows ≤ m * nRows := Nat.le_mul_of_pos_left nRows some
    have full : (slice output 0 nRows).length = nRows := length_slice (by omega)
    have first := @gemmKernel_first _ _ dot blocks input output blockSize m nRows k short fits accept some _ full
    constructor
    case panics =>
      intro unfit
      rcases Nat.eq_zero_or_pos nRows with noRows | rows
      · rw [gemmRowsPar, if_neg many]
        exact onPart_chunks_empty noRows
      · refine gemmRowsPar_error accept many rows (first.panics fun fine => unfit ⟨fine, ?_⟩)
        intro empty
        exact Nat.ne_of_gt rows empty.1
    case refuses =>
      intro fine refused
      have rows : 0 < nRows := Nat.pos_of_ne_zero fun noRows => fine.2 ⟨noRows, Nat.not_lt.mp many⟩
      obtain ⟨error, failed⟩ := first.refuses fine.1 refused
      exact ⟨error, gemmRowsPar_error accept many rows failed⟩
    case answers =>
      intro fine inside
      exact gemmRowsPar_answers (fun _ _ output _ _ _ fits accept => (gemmKernel_settles output).answers fits accept)
        (whole fine.1) ⟨accept, inside⟩ fine.2

end Unchecked

/-- The product that leaves the check of the blocks to the direct kernel settles as the others. -/
theorem gemm1bitG128Par_settles :
    Settles (GemmFits qk1_0G128 input output m nRows k ∧ ¬GemmEmptyRows qk1_0G128 input m nRows k)
      (GemmAccepted qk1_0G128 blocks input output m nRows k) (gemm1bitG128Par dot blocks input output m nRows k)
      (paint (Set.Iio (m * nRows)) (gemmValue dot blocks input (k / qk1_0G128) nRows k) output) := by
  refine Settles.congr (Settles.bind (checkGemmBuffers_settles qk1_0G128 input output m nRows k)
    fun fits accept => gemmRowsPar_settles fits accept) ?_ fun _ => ?_
  · constructor
    · intro ⟨fits, later⟩
      refine ⟨⟨fits, fun accept => (later accept).1⟩, fun empty => ?_⟩
      have accept : GemmBuffersAccepted qk1_0G128 input output m nRows k :=
        ⟨empty.aligned, empty.inputs, by simp [empty.noRows]⟩
      exact (later accept).2 ⟨empty.noRows, empty.batch⟩
    · intro ⟨fits, rows⟩
      exact ⟨fits.1, fun accept => ⟨fits.2 accept, fun empty => rows ⟨empty.1, empty.2, accept.aligned, accept.inputs⟩⟩⟩
  · exact ⟨fun ⟨buffers, rows⟩ => ⟨buffers, rows⟩, fun accept => ⟨accept.toGemmBuffersAccepted, accept.rows⟩⟩

end Pictor.Kernels
