import Pictor.Library.Tiling

namespace Pictor.Kernels
open Slice Tiling

inductive KernelError where
  | dimensionMismatch (expected got : Nat)
  | bufferTooSmall (needed available : Nat)
  | notBlockAligned (count blockSize : Nat)

/-- A kernel call fails with an error of its own, or the thread panics. -/
inductive KernelFailure where
  | error (error : KernelError)
  | panic

inductive KernelTier where
  | reference
  | avx2
  | avx512
  | neon

def qk1_0G128 : Nat := 128

def qkTq2_0G128 : Nat := 128

def qkFp8 : Nat := 32

abbrev KernelResult := Except KernelFailure

/-- The product of two sizes panics on an overflow. -/
def sizeMul (first second : Nat) : KernelResult Nat :=
  if first * second < 2 ^ 64 then .ok (first * second) else .error .panic

def refuseIf (refused : Prop) [Decidable refused] (error : KernelError) : KernelResult Unit :=
  if refused then .error (.error error) else .ok ()

variable {Block Scalar : Type}

/-- The error of a kernel for too few blocks is its own. -/
abbrev ShortBlocks := Nat → Nat → KernelError

def checkBlocks (blockSize : Nat) (shortBlocks : ShortBlocks) (blocks : List Block) (nRows k : Nat) :
    KernelResult Nat := do
  let blocksPerRow := k / blockSize
  let expectedBlocks ← sizeMul nRows blocksPerRow
  refuseIf (blocks.length < expectedBlocks) (shortBlocks expectedBlocks blocks.length)
  return blocksPerRow

def checkGemvBuffers (blockSize : Nat) (input output : List Scalar) (nRows k : Nat) : KernelResult Unit := do
  refuseIf (k % blockSize ≠ 0) (.notBlockAligned k blockSize)
  refuseIf (input.length < k) (.dimensionMismatch k input.length)
  refuseIf (output.length < nRows) (.bufferTooSmall nRows output.length)

def checkGemmBuffers (blockSize : Nat) (input output : List Scalar) (m nRows k : Nat) : KernelResult Unit := do
  refuseIf (k % blockSize ≠ 0) (.notBlockAligned k blockSize)
  let inputs ← sizeMul m k
  refuseIf (input.length < inputs) (.dimensionMismatch inputs input.length)
  let outputs ← sizeMul m nRows
  refuseIf (output.length < outputs) (.bufferTooSmall outputs output.length)

/-- The checks of a matrix-vector product return the blocks of a row. -/
def checkGemv (blockSize : Nat) (shortBlocks : ShortBlocks) (blocks : List Block) (input output : List Scalar)
    (nRows k : Nat) : KernelResult Nat := do
  checkGemvBuffers blockSize input output nRows k
  checkBlocks blockSize shortBlocks blocks nRows k

/-- The checks of a matrix product return the blocks of a row. -/
def checkGemm (blockSize : Nat) (shortBlocks : ShortBlocks) (blocks : List Block) (input output : List Scalar)
    (m nRows k : Nat) : KernelResult Nat := do
  checkGemmBuffers blockSize input output m nRows k
  checkBlocks blockSize shortBlocks blocks nRows k

/-- One output is a function of the blocks of its row and the input values. -/
abbrev RowDot (Block Scalar : Type) := List Block → List Scalar → Scalar

abbrev Gemv (Block Scalar : Type) :=
  List Block → List Scalar → List Scalar → Nat → Nat → KernelResult (List Scalar)

abbrev Gemm (Block Scalar : Type) :=
  List Block → List Scalar → List Scalar → Nat → Nat → Nat → KernelResult (List Scalar)

variable (dot : RowDot Block Scalar)

def gemvKernel (blockSize : Nat) (shortBlocks : ShortBlocks) (blocks : List Block) (input output : List Scalar)
    (nRows k : Nat) : KernelResult (List Scalar) := do
  let blocksPerRow ← checkGemv blockSize shortBlocks blocks input output nRows k
  (List.range nRows).foldlM (fun output row => do
    let rowBlocks ← part .panic blocks (row * blocksPerRow) ((row + 1) * blocksPerRow)
    setAt .panic row (dot rowBlocks (input.take k)) output) output

def gemmKernel (blockSize : Nat) (shortBlocks : ShortBlocks) (blocks : List Block) (input output : List Scalar)
    (m nRows k : Nat) : KernelResult (List Scalar) := do
  let blocksPerRow ← checkGemm blockSize shortBlocks blocks input output m nRows k
  (List.range m).foldlM (fun output mi => do
    let inputRow ← part .panic input (mi * k) ((mi + 1) * k)
    (List.range nRows).foldlM (fun output ni => do
      let rowBlocks ← part .panic blocks (ni * blocksPerRow) ((ni + 1) * blocksPerRow)
      setAt .panic (mi * nRows + ni) (dot rowBlocks inputRow) output) output) output

/-- A matrix product of one matrix-vector product for each input row. -/
def gemmRows (gemv : Gemv Block Scalar) (blocks : List Block)
    (input output : List Scalar) (m nRows k : Nat) : KernelResult (List Scalar) :=
  (List.range m).foldlM (fun output batch => do
    let inputRow ← part .panic input (batch * k) ((batch + 1) * k)
    onPart .panic (batch * nRows) ((batch + 1) * nRows) (fun outputRow => gemv blocks inputRow outputRow nRows k)
      output) output

namespace Dispatcher

def gemv : Gemv Block Scalar :=
  gemvKernel dot qk1_0G128 .bufferTooSmall

def gemm : Gemm Block Scalar :=
  gemmKernel dot qk1_0G128 .bufferTooSmall

def gemvTernaryG128 (tier : KernelTier) : Gemv Block Scalar :=
  match tier with
  | .reference => gemvKernel dot qkTq2_0G128 .dimensionMismatch
  | _ => gemvKernel dot qkTq2_0G128 .bufferTooSmall

/-- The reference tier leaves the check of the blocks to the product of each input row. -/
def gemmTernaryG128 (tier : KernelTier) (blocks : List Block) (input output : List Scalar) (m nRows k : Nat) :
    KernelResult (List Scalar) :=
  match tier with
  | .reference => do
      checkGemmBuffers qkTq2_0G128 input output m nRows k
      gemmRows (gemvTernaryG128 dot .reference) blocks input output m nRows k
  | _ => gemmKernel dot qkTq2_0G128 .bufferTooSmall blocks input output m nRows k

def gemvFp8E4m3 : Gemv Block Scalar :=
  gemvKernel dot qkFp8 .dimensionMismatch

def gemvFp8E5m2 : Gemv Block Scalar :=
  gemvKernel dot qkFp8 .dimensionMismatch

def gemmFp8E4m3 (blocks : List Block) (inputs outputs : List Scalar) (nRows k batch : Nat) : KernelResult (List Scalar) := do
  let _ ← checkGemm qkFp8 .dimensionMismatch blocks inputs outputs batch nRows k
  gemmRows (gemvFp8E4m3 dot) blocks inputs outputs batch nRows k

def gemmFp8E5m2 (blocks : List Block) (inputs outputs : List Scalar) (nRows k batch : Nat) : KernelResult (List Scalar) := do
  let _ ← checkGemm qkFp8 .dimensionMismatch blocks inputs outputs batch nRows k
  gemmRows (gemvFp8E5m2 dot) blocks inputs outputs batch nRows k

end Dispatcher

end Pictor.Kernels

namespace Pictor.Kernels
open Slice Tiling

def l1TileRows : Nat := 32

def l2TileRows : Nat := 256

def parTiledGemvMinRows : Nat := 64

def parTiledGemmMinBatch : Nat := 4

def gemmBatchTile : Nat := 8

/-- The tile size panics if the bytes of the input overflow. -/
def optimalTileRows (k : Nat) : KernelResult Nat := do
  let bytesPerRow := k / qk1_0G128 * 18
  let inputBytes ← sizeMul k 4
  let l1Available := 32 * 1024 - inputBytes
  let l1Rows := if bytesPerRow = 0 then l1TileRows else l1Available / bytesPerRow
  return min (max l1Rows 4) l2TileRows

variable {Block Scalar : Type} (dot : RowDot Block Scalar)

/-- One call of the direct kernel for each tile of the rows. -/
def gemvTiles (tileRows : Nat) (positive : 0 < tileRows) (blocks : List Block) (input : List Scalar)
    (blocksPerRow nRows k : Nat) : List Scalar → KernelResult (List Scalar) :=
  tiles tileRows positive nRows (fun rowStart rows output => do
    let tileBlocks ← part .panic blocks (rowStart * blocksPerRow) ((rowStart + rows) * blocksPerRow)
    onPart .panic rowStart (rowStart + rows) (fun tile => Dispatcher.gemv dot tileBlocks input tile rows k) output) 0

def gemvTiled (blocks : List Block) (input output : List Scalar) (nRows k : Nat) : KernelResult (List Scalar) := do
  let blocksPerRow ← checkGemv qk1_0G128 .bufferTooSmall blocks input output nRows k
  gemvTiles dot l1TileRows (by decide) blocks input blocksPerRow nRows k output

def gemmTiled (blocks : List Block) (input output : List Scalar) (m nRows k : Nat) : KernelResult (List Scalar) := do
  let blocksPerRow ← checkGemm qk1_0G128 .bufferTooSmall blocks input output m nRows k
  tiles gemmBatchTile (by decide) m (fun batchStart batchTile output =>
    tiles l1TileRows (by decide) nRows (fun rowStart tileRows output =>
      (List.range batchTile).foldlM (fun output bi => do
        let mi := batchStart + bi
        let tileBlocks ← part .panic blocks (rowStart * blocksPerRow) ((rowStart + tileRows) * blocksPerRow)
        let inputRow ← part .panic input (mi * k) (mi * k + k)
        let outputOffset := mi * nRows + rowStart
        onPart .panic outputOffset (outputOffset + tileRows)
          (fun tile => Dispatcher.gemm dot tileBlocks inputRow tile 1 tileRows k) output) output) 0 output) 0 output

/-- Each chunk of the rows is cut into tiles on its own. -/
def gemvChunks (tileRows : Nat) (positive : 0 < tileRows) (blocks : List Block) (input : List Scalar)
    (blocksPerRow nRows k : Nat) : List Scalar → KernelResult (List Scalar) :=
  onPart .panic 0 nRows (chunks .panic l2TileRows fun tileIdx outChunk => do
    let tileStart := tileIdx * l2TileRows
    let chunkRows := outChunk.length
    let tileBlocks ← part .panic blocks (tileStart * blocksPerRow) ((tileStart + chunkRows) * blocksPerRow)
    gemvTiles dot tileRows positive tileBlocks input blocksPerRow chunkRows k outChunk)

def gemvTiledPar (blocks : List Block) (input output : List Scalar) (nRows k : Nat) : KernelResult (List Scalar) := do
  let blocksPerRow ← checkGemv qk1_0G128 .bufferTooSmall blocks input output nRows k
  if nRows < parTiledGemvMinRows then gemvTiled dot blocks input output nRows k
  else gemvChunks dot l1TileRows (by decide) blocks input blocksPerRow nRows k output

/-- Each output row is a chunk, whose weight rows are cut into tiles. -/
def gemmChunks (tileRows : Nat) (positive : 0 < tileRows) (blocks : List Block) (input : List Scalar)
    (blocksPerRow m nRows k : Nat) : List Scalar → KernelResult (List Scalar) :=
  onPart .panic 0 (m * nRows) (chunks .panic nRows fun mi =>
    tiles tileRows positive nRows (fun rowStart rows outRow => do
      let tileBlocks ← part .panic blocks (rowStart * blocksPerRow) ((rowStart + rows) * blocksPerRow)
      let inputRow ← part .panic input (mi * k) (mi * k + k)
      onPart .panic rowStart (rowStart + rows)
        (fun tile => Dispatcher.gemm dot tileBlocks inputRow tile 1 rows k) outRow) 0)

def gemmTiledPar (blocks : List Block) (input output : List Scalar) (m nRows k : Nat) : KernelResult (List Scalar) := do
  let blocksPerRow ← checkGemm qk1_0G128 .bufferTooSmall blocks input output m nRows k
  if m < parTiledGemmMinBatch then gemmTiled dot blocks input output m nRows k
  else gemmChunks dot l1TileRows (by decide) blocks input blocksPerRow m nRows k output

end Pictor.Kernels

namespace Pictor.Kernels
open Slice Tiling

def parGemvMinRows : Nat := 64

def parGemmMinBatch : Nat := 4

variable {Block Scalar : Type}

section Rows

variable (gemv : Gemv Block Scalar)
  (gemm : Gemm Block Scalar)

/-- Each output is a chunk of its own. -/
def gemvPar (blockSize : Nat) (shortBlocks : ShortBlocks) (blocks : List Block) (input output : List Scalar)
    (nRows k : Nat) : KernelResult (List Scalar) := do
  let blocksPerRow ← checkGemv blockSize shortBlocks blocks input output nRows k
  if nRows < parGemvMinRows then gemv blocks input output nRows k
  else
    onPart .panic 0 nRows (chunks .panic 1 fun row outChunk => do
      let rowBlocks ← part .panic blocks (row * blocksPerRow) ((row + 1) * blocksPerRow)
      gemv rowBlocks input outChunk 1 k) output

/-- Each output row is a chunk of its own. -/
def gemmRowsPar (blocks : List Block) (input output : List Scalar) (m nRows k : Nat) : KernelResult (List Scalar) :=
  if m < parGemmMinBatch then gemm blocks input output m nRows k
  else
    onPart .panic 0 (m * nRows) (chunks .panic nRows fun mi outRow => do
      let inputRow ← part .panic input (mi * k) ((mi + 1) * k)
      gemm blocks inputRow outRow 1 nRows k) output

/-- Most of the parallel products check the blocks before they choose a path. -/
def gemmPar (blockSize : Nat) (shortBlocks : ShortBlocks) (blocks : List Block) (input output : List Scalar)
    (m nRows k : Nat) : KernelResult (List Scalar) := do
  let _ ← checkGemm blockSize shortBlocks blocks input output m nRows k
  gemmRowsPar gemm blocks input output m nRows k

end Rows

variable (dot : RowDot Block Scalar)

def gemv1bitG128Par : Gemv Block Scalar :=
  gemvPar (Dispatcher.gemv dot) qk1_0G128 .bufferTooSmall

/-- This product leaves the check of the blocks to the direct kernel. -/
def gemm1bitG128Par (blocks : List Block) (input output : List Scalar) (m nRows k : Nat) : KernelResult (List Scalar) := do
  checkGemmBuffers qk1_0G128 input output m nRows k
  gemmRowsPar (Dispatcher.gemm dot) blocks input output m nRows k

def gemvTernaryG128Par (tier : KernelTier) :
    Gemv Block Scalar :=
  gemvPar (Dispatcher.gemvTernaryG128 dot tier) qkTq2_0G128 .bufferTooSmall

def gemmTernaryG128Par (tier : KernelTier) :
    Gemm Block Scalar :=
  gemmPar (Dispatcher.gemmTernaryG128 dot tier) qkTq2_0G128 .bufferTooSmall

def gemvFp8E4m3Par : Gemv Block Scalar :=
  gemvPar (Dispatcher.gemvFp8E4m3 dot) qkFp8 .dimensionMismatch

def gemvFp8E5m2Par : Gemv Block Scalar :=
  gemvPar (Dispatcher.gemvFp8E5m2 dot) qkFp8 .dimensionMismatch

def gemmFp8E4m3Par (blocks : List Block) (inputs outputs : List Scalar) (nRows k batch : Nat) : KernelResult (List Scalar) :=
  gemmPar (fun blocks inputs outputs batch nRows k => Dispatcher.gemmFp8E4m3 dot blocks inputs outputs nRows k batch)
    qkFp8 .dimensionMismatch blocks inputs outputs batch nRows k

def gemmFp8E5m2Par (blocks : List Block) (inputs outputs : List Scalar) (nRows k batch : Nat) : KernelResult (List Scalar) :=
  gemmPar (fun blocks inputs outputs batch nRows k => Dispatcher.gemmFp8E5m2 dot blocks inputs outputs nRows k batch)
    qkFp8 .dimensionMismatch blocks inputs outputs batch nRows k

def parTiledMinRows : Nat := 128

def parTiledMinBatch : Nat := 4

def directDispatchMaxRows : Nat := 32

def mediumParallelMaxRows : Nat := 256

def gemvParallelTiled (blocks : List Block) (input output : List Scalar) (nRows k : Nat) : KernelResult (List Scalar) := do
  let blocksPerRow ← checkGemv qk1_0G128 .bufferTooSmall blocks input output nRows k
  if nRows < parTiledMinRows then gemvTiled dot blocks input output nRows k
  else
    let l1Tile ← optimalTileRows k
    gemvChunks dot (max l1Tile 1) (Nat.le_max_right _ _) blocks input blocksPerRow nRows k output

def gemmParallelTiled (blocks : List Block) (input output : List Scalar) (m nRows k : Nat) : KernelResult (List Scalar) := do
  let blocksPerRow ← checkGemm qk1_0G128 .bufferTooSmall blocks input output m nRows k
  if m < parTiledMinBatch then gemmTiled dot blocks input output m nRows k
  else
    let l1Tile ← optimalTileRows k
    gemmChunks dot (max l1Tile 1) (Nat.le_max_right _ _) blocks input blocksPerRow m nRows k output

inductive AdaptiveStrategy where
  | direct
  | parallelRow
  | parallelTiled

def selectGemvStrategy (nRows _k : Nat) : AdaptiveStrategy :=
  if nRows ≤ directDispatchMaxRows then .direct
  else if nRows ≤ mediumParallelMaxRows then .parallelRow
  else .parallelTiled

def gemvAdaptive (blocks : List Block) (input output : List Scalar) (nRows k : Nat) : KernelResult (List Scalar) :=
  match selectGemvStrategy nRows k with
  | .direct => Dispatcher.gemv dot blocks input output nRows k
  | .parallelRow => gemv1bitG128Par dot blocks input output nRows k
  | .parallelTiled => gemvParallelTiled dot blocks input output nRows k

end Pictor.Kernels

namespace Pictor.Kernels
open Tiling

variable {Block : Type}

def tileSize (nRows : Nat) : Nat := min 32 nRows

/-- The size checks of both directions. -/
def checkPacking (blocks : List Block) (nRows k : Nat) : KernelResult Unit := do
  refuseIf (k % qk1_0G128 ≠ 0) (.notBlockAligned k qk1_0G128)
  let totalBlocks := nRows * (k / qk1_0G128)
  refuseIf (blocks.length < totalBlocks) (.bufferTooSmall totalBlocks blocks.length)

/-- Each tile emits one block of all its rows after another. -/
def packTiles (blocks : List Block) (nRows blocksPerRow tileStart : Nat) (packed : List Block) :
    KernelResult (List Block) :=
  if tileStart < nRows then do
    let tileRows := min (nRows - tileStart) (tileSize nRows)
    let packed ← (List.range blocksPerRow).foldlM (fun packed bi =>
      (List.range tileRows).foldlM (fun packed rowOffset => do
        let row := tileStart + rowOffset
        let block ← getAt .panic (row * blocksPerRow + bi) blocks
        return packed ++ [block]) packed) packed
    packTiles blocks nRows blocksPerRow (tileStart + tileRows) packed
  else
    .ok packed
termination_by nRows - tileStart
decreasing_by
  simp only [tileSize]
  omega

def packBlocksForGemv (blocks : List Block) (nRows k : Nat) : KernelResult (List Block) := do
  checkPacking blocks nRows k
  packTiles blocks nRows (k / qk1_0G128) 0 []

/-- The packed blocks are taken in their order. -/
def unpackTiles (packed : List Block) (nRows blocksPerRow tileStart : Nat) (state : Nat × List Block) :
    KernelResult (Nat × List Block) :=
  if tileStart < nRows then do
    let tileRows := min (nRows - tileStart) (tileSize nRows)
    let state ← (List.range blocksPerRow).foldlM (fun state bi =>
      (List.range tileRows).foldlM (fun (packedIdx, unpacked) rowOffset => do
        let row := tileStart + rowOffset
        let block ← getAt .panic packedIdx packed
        let unpacked ← setAt .panic (row * blocksPerRow + bi) block unpacked
        return (packedIdx + 1, unpacked)) state) state
    unpackTiles packed nRows blocksPerRow (tileStart + tileRows) state
  else
    .ok state
termination_by nRows - tileStart
decreasing_by
  simp only [tileSize]
  omega

/-- The buffer starts with blocks of zeros. -/
def unpackBlocksFromGemv (zero : Block) (packed : List Block) (nRows k : Nat) : KernelResult (List Block) := do
  checkPacking packed nRows k
  let (_, unpacked) ← unpackTiles packed nRows (k / qk1_0G128) 0
    (0, List.replicate (nRows * (k / qk1_0G128)) zero)
  return unpacked

end Pictor.Kernels
