import Pictor.Proof.Kernels.ParallelValues

namespace Pictor.Kernels
open Slice Tiling

variable {Block Scalar : Type}

/-- A kernel does not panic, succeeds exactly if the direct one does, and then writes the same outputs and
leaves the rest of the buffer. -/
structure Agrees (count : Nat) (output : List Scalar) (variant direct : KernelResult (List Scalar)) : Prop where
  returns : variant ≠ .error .panic
  same : ∀ written, variant = .ok written ↔ direct = .ok written
  rest : ∀ written, variant = .ok written →
    written.length = output.length ∧ written.drop count = output.drop count

/-- The slice of 32-bit numbers is no longer than its address space. -/
def FloatSlice (Scalar : Type) : Type := {values : List Scalar // values.length * 4 < 2 ^ 63}

inductive GemvVariant where
  | tiled
  | tiledPar
  | parallelTiled
  | adaptive
  | par
  | ternaryPar (tier : KernelTier)
  | fp8E4m3Par
  | fp8E5m2Par

namespace GemvVariant

def blockSize : GemvVariant → Nat
  | ternaryPar _ => qkTq2_0G128
  | fp8E4m3Par | fp8E5m2Par => qkFp8
  | _ => qk1_0G128

def run (dot : RowDot Block Scalar) : GemvVariant → Gemv Block Scalar
  | tiled => gemvTiled dot
  | tiledPar => gemvTiledPar dot
  | parallelTiled => gemvParallelTiled dot
  | adaptive => gemvAdaptive dot
  | par => gemv1bitG128Par dot
  | ternaryPar tier => gemvTernaryG128Par dot tier
  | fp8E4m3Par => gemvFp8E4m3Par dot
  | fp8E5m2Par => gemvFp8E5m2Par dot

def direct (dot : RowDot Block Scalar) : GemvVariant → Gemv Block Scalar
  | ternaryPar tier => Dispatcher.gemvTernaryG128 dot tier
  | fp8E4m3Par => Dispatcher.gemvFp8E4m3 dot
  | fp8E5m2Par => Dispatcher.gemvFp8E5m2 dot
  | _ => Dispatcher.gemv dot

end GemvVariant

inductive GemmVariant where
  | tiled
  | tiledPar
  | parallelTiled
  | par
  | ternaryPar (tier : KernelTier)
  | fp8E4m3Par
  | fp8E5m2Par

namespace GemmVariant

def blockSize : GemmVariant → Nat
  | ternaryPar _ => qkTq2_0G128
  | fp8E4m3Par | fp8E5m2Par => qkFp8
  | _ => qk1_0G128

def run (dot : RowDot Block Scalar) : GemmVariant → Gemm Block Scalar
  | tiled => gemmTiled dot
  | tiledPar => gemmTiledPar dot
  | parallelTiled => gemmParallelTiled dot
  | par => gemm1bitG128Par dot
  | ternaryPar tier => gemmTernaryG128Par dot tier
  | fp8E4m3Par => fun blocks inputs outputs m nRows k => gemmFp8E4m3Par dot blocks inputs outputs nRows k m
  | fp8E5m2Par => fun blocks inputs outputs m nRows k => gemmFp8E5m2Par dot blocks inputs outputs nRows k m

def direct (dot : RowDot Block Scalar) : GemmVariant → Gemm Block Scalar
  | ternaryPar tier => Dispatcher.gemmTernaryG128 dot tier
  | fp8E4m3Par => fun blocks inputs outputs m nRows k => Dispatcher.gemmFp8E4m3 dot blocks inputs outputs nRows k m
  | fp8E5m2Par => fun blocks inputs outputs m nRows k => Dispatcher.gemmFp8E5m2 dot blocks inputs outputs nRows k m
  | _ => Dispatcher.gemm dot

/-- The kernel hands each output row of a large batch to a thread. -/
def SplitsBatch (variant : GemmVariant) : Prop := variant ≠ tiled

/-- The kernel checks the blocks where the direct one does not. -/
def ChecksMore (variant : GemmVariant) : Prop := variant = ternaryPar .reference

end GemmVariant

variable {dot : RowDot Block Scalar} {blocks : List Block} {input output : List Scalar}
  {blockSize count m nRows k : Nat} {shortBlocks short : ShortBlocks}

/-- A kernel that settles with the answer of the direct one agrees with it exactly if the sizes fit. -/
theorem Settles.agrees {fits accepted : Prop} {variant direct : KernelResult (List Scalar)}
    {value : Nat → Scalar} (settles : Settles fits accepted variant (paint (Set.Iio count) value output))
    (refuses : fits → ¬accepted → ∃ error, direct = .error (.error error))
    (answers : fits → accepted → direct = .ok (paint (Set.Iio count) value output)) :
    Agrees count output variant direct ↔ fits := by
  constructor
  · intro agrees
    by_contra unfit
    exact agrees.returns (settles.panics unfit)
  · intro fine
    by_cases accept : accepted
    · rw [settles.answers fine accept, answers fine accept]
      refine ⟨fun wrong => (nomatch wrong), fun written => Iff.rfl, fun written same => ?_⟩
      rw [← Except.ok.inj same]
      exact ⟨length_paint, drop_paint fun index below => below⟩
    · obtain ⟨error, failed⟩ := settles.refuses fine accept
      obtain ⟨error', failed'⟩ := refuses fine accept
      rw [failed, failed']
      refine ⟨fun wrong => ?_, fun written => ?_, fun written same => (nomatch same)⟩
      · cases wrong
      · exact iff_of_false (fun same => nomatch same) fun same => nomatch same

theorem GemvVariant.settles (variant : GemvVariant) (addressable : input.length * 4 < 2 ^ 63) :
    Settles (GemvFits variant.blockSize input output nRows k)
      (GemvAccepted variant.blockSize blocks input output nRows k) (variant.run dot blocks input output nRows k)
      (paint (Set.Iio nRows) (gemvValue dot blocks input (k / variant.blockSize) k) output) := by
  cases variant with
  | tiled => exact gemvTiled_settles
  | tiledPar => exact gemvTiledPar_settles
  | parallelTiled => exact gemvParallelTiled_settles addressable
  | adaptive => exact gemvAdaptive_settles addressable
  | par => exact gemvPar_settles
  | ternaryPar tier => cases tier <;> exact gemvPar_settles
  | fp8E4m3Par => exact gemvPar_settles
  | fp8E5m2Par => exact gemvPar_settles

theorem GemvVariant.direct_settles (variant : GemvVariant) : Settles (GemvFits variant.blockSize input output nRows k)
      (GemvAccepted variant.blockSize blocks input output nRows k) (variant.direct dot blocks input output nRows k)
      (paint (Set.Iio nRows) (gemvValue dot blocks input (k / variant.blockSize) k) output) := by
  cases variant with
  | ternaryPar tier => cases tier <;> exact gemvKernel_settles output
  | _ => exact gemvKernel_settles output

theorem gemmFp8_answers : GemmAnswers dot (fun blocks inputs outputs m nRows k => do
    let _ ← checkGemm blockSize shortBlocks blocks inputs outputs m nRows k
    gemmRows (gemvKernel dot blockSize shortBlocks) blocks inputs outputs m nRows k) blockSize :=
  fun _ _ output _ _ _ fits accept => (gemmFp8_settles output).answers fits accept

theorem GemmVariant.settles (variant : GemmVariant) : Settles (GemmFits variant.blockSize input output m nRows k ∧
        (variant.SplitsBatch → ¬GemmEmptyRows variant.blockSize input m nRows k))
      (GemmAccepted variant.blockSize blocks input output m nRows k) (variant.run dot blocks input output m nRows k)
      (paint (Set.Iio (m * nRows)) (gemmValue dot blocks input (k / variant.blockSize) nRows k) output) := by
  have splits : variant.SplitsBatch →
      (GemmFits variant.blockSize input output m nRows k ∧ ¬GemmEmptyRows variant.blockSize input m nRows k ↔
        GemmFits variant.blockSize input output m nRows k ∧
          (variant.SplitsBatch → ¬GemmEmptyRows variant.blockSize input m nRows k)) := by
    intro split
    rw [forall_prop_of_true split]
  cases variant with
  | tiled => exact gemmTiled_settles.congr (by simp [GemmVariant.SplitsBatch, blockSize]) fun _ => Iff.rfl
  | tiledPar => exact gemmTiledPar_settles.congr (splits (fun same => nomatch same)) fun _ => Iff.rfl
  | parallelTiled => exact gemmParallelTiled_settles.congr (splits (fun same => nomatch same)) fun _ => Iff.rfl
  | par => exact gemm1bitG128Par_settles.congr (splits (fun same => nomatch same)) fun _ => Iff.rfl
  | ternaryPar tier =>
      exact (gemmPar_settles (gemmTernary_answers tier)).congr (splits (fun same => nomatch same)) fun _ => Iff.rfl
  | fp8E4m3Par => exact (gemmPar_settles gemmFp8_answers).congr (splits (fun same => nomatch same)) fun _ => Iff.rfl
  | fp8E5m2Par => exact (gemmPar_settles gemmFp8_answers).congr (splits (fun same => nomatch same)) fun _ => Iff.rfl

variable (blockSize blocks m nRows k) in
/-- A product of no input rows has fewer blocks than its rows need. -/
structure GemmNoBatch : Prop where
  batch : m = 0
  aligned : k % blockSize = 0
  short : blocks.length < nRows * (k / blockSize)

/-- The reference tier refuses a product as the other ones do, except one of no input rows. -/
theorem gemmTernary_refuses (tier : KernelTier) (fits : GemmFits qkTq2_0G128 input output m nRows k)
    (refused : ¬GemmAccepted qkTq2_0G128 blocks input output m nRows k)
    (batch : tier = .reference → ¬GemmNoBatch blocks qkTq2_0G128 m nRows k) :
    ∃ error, Dispatcher.gemmTernaryG128 dot tier blocks input output m nRows k = .error (.error error) := by
  cases tier with
  | reference =>
      have checks := checkGemmBuffers_settles qkTq2_0G128 input output m nRows k
      change ∃ error, checkGemmBuffers qkTq2_0G128 input output m nRows k >>= _ = _
      by_cases accept : GemmBuffersAccepted qkTq2_0G128 input output m nRows k
      · have short : ¬nRows * (k / qkTq2_0G128) ≤ blocks.length := fun fine => refused ⟨accept, fine⟩
        have some : m ≠ 0 := fun noBatch => batch rfl ⟨noBatch, accept.aligned, Nat.not_le.mp short⟩
        obtain ⟨more, rfl⟩ := Nat.exists_eq_succ_of_ne_zero some
        rw [checks.answers fits.1 accept]
        change ∃ error, gemmRows _ blocks input output (more + 1) nRows k = _
        have first := @gemvKernel_settles _ _ dot blocks (slice input 0 k) qkTq2_0G128 nRows k .dimensionMismatch
          (slice output 0 nRows)
        obtain ⟨error, failed⟩ := first.refuses (fun _ _ _ => fits.2 accept) fun fine => short fine.rows
        have last : nRows ≤ (more + 1) * nRows := Nat.le_mul_of_pos_left nRows (Nat.succ_pos more)
        have outputs : (more + 1) * nRows ≤ output.length := accept.outputs
        refine ⟨error, ?_⟩
        rw [gemmRows, List.range_succ_eq_map, List.foldlM_cons, part_row (Nat.succ_pos more) accept.inputs,
          Nat.zero_mul]
        change (onPart _ (0 * nRows) _ _ output >>= _) = _
        rw [Nat.zero_mul, onPart_error (Nat.zero_le _) (by omega) (by
          rw [Nat.zero_add, Nat.one_mul, Nat.sub_zero]
          exact failed)]
        rfl
      · obtain ⟨error, failed⟩ := checks.refuses fits.1 accept
        rw [failed]
        exact ⟨error, rfl⟩
  | avx2 => exact (gemmKernel_settles output).refuses fits refused
  | avx512 => exact (gemmKernel_settles output).refuses fits refused
  | neon => exact (gemmKernel_settles output).refuses fits refused

/-- The reference tier answers a product of no input rows, whatever the blocks are. -/
theorem gemmTernary_noBatch (fits : GemmFits qkTq2_0G128 input output m nRows k)
    (batch : GemmNoBatch blocks qkTq2_0G128 m nRows k) :
    Dispatcher.gemmTernaryG128 dot .reference blocks input output m nRows k = .ok output := by
  obtain ⟨rfl, aligned, _⟩ := batch
  change checkGemmBuffers qkTq2_0G128 input output 0 nRows k >>= _ = _
  rw [(checkGemmBuffers_settles qkTq2_0G128 input output 0 nRows k).answers fits.1
    ⟨aligned, by simp, by simp⟩]
  rfl

theorem GemmVariant.direct_answers (variant : GemmVariant) (fits : GemmFits variant.blockSize input output m nRows k)
    (accept : GemmAccepted variant.blockSize blocks input output m nRows k) :
    variant.direct dot blocks input output m nRows k =
      .ok (paint (Set.Iio (m * nRows)) (gemmValue dot blocks input (k / variant.blockSize) nRows k) output) := by
  cases variant with
  | ternaryPar tier => exact gemmTernary_answers tier blocks input output m nRows k fits accept
  | fp8E4m3Par => exact gemmFp8_answers blocks input output m nRows k fits accept
  | fp8E5m2Par => exact gemmFp8_answers blocks input output m nRows k fits accept
  | _ => exact (gemmKernel_settles output).answers fits accept

theorem GemmVariant.direct_refuses (variant : GemmVariant) (fits : GemmFits variant.blockSize input output m nRows k)
    (refused : ¬GemmAccepted variant.blockSize blocks input output m nRows k)
    (batch : variant.ChecksMore → ¬GemmNoBatch blocks variant.blockSize m nRows k) :
    ∃ error, variant.direct dot blocks input output m nRows k = .error (.error error) := by
  cases variant with
  | ternaryPar tier => exact gemmTernary_refuses tier fits refused fun same => batch (by rw [same, ChecksMore])
  | fp8E4m3Par => exact (gemmFp8_settles output).refuses fits refused
  | fp8E5m2Par => exact (gemmFp8_settles output).refuses fits refused
  | _ => exact (gemmKernel_settles output).refuses fits refused

/-- The tiled and parallel products agree with the direct ones unless a size overflows, several input rows meet no
weight rows, or a product of no input rows misses blocks that only the parallel kernel counts. -/
theorem kernels_agree (dot : RowDot Block Scalar) (blocks : List Block) (input : FloatSlice Scalar)
    (output : List Scalar) (nRows k : Nat) : (∀ variant : GemvVariant,
        Agrees nRows output (variant.run dot blocks input.val output nRows k)
            (variant.direct dot blocks input.val output nRows k) ↔
          GemvFits variant.blockSize input.val output nRows k) ∧ ∀ (variant : GemmVariant) (m : Nat),
        Agrees (m * nRows) output (variant.run dot blocks input.val output m nRows k)
            (variant.direct dot blocks input.val output m nRows k) ↔
          GemmFits variant.blockSize input.val output m nRows k ∧
            (variant.SplitsBatch → ¬GemmEmptyRows variant.blockSize input.val m nRows k) ∧
              (variant.ChecksMore → ¬GemmNoBatch blocks variant.blockSize m nRows k) := by
  constructor
  · intro variant
    exact (variant.settles input.property).agrees variant.direct_settles.refuses variant.direct_settles.answers
  · intro variant m
    by_cases batch : variant.ChecksMore → ¬GemmNoBatch blocks variant.blockSize m nRows k
    · rw [variant.settles.agrees (fun fits refused => variant.direct_refuses fits.1 refused batch)
        fun fits => variant.direct_answers fits.1]
      tauto
    · obtain ⟨more, noBatch⟩ := Classical.not_imp.mp batch
      rw [not_not] at noBatch
      refine iff_of_false (fun agrees => ?_) fun fine => batch fine.2.2
      rw [GemmVariant.ChecksMore] at more
      subst more
      have settles := @GemmVariant.settles _ _ dot blocks input.val output m nRows k (.ternaryPar .reference)
      by_cases fits : GemmFits qkTq2_0G128 input.val output m nRows k
      · have rows : ¬GemmEmptyRows qkTq2_0G128 input.val m nRows k := fun empty => by
          have := empty.batch
          rw [noBatch.batch] at this
          omega
        obtain ⟨error, failed⟩ := settles.refuses ⟨fits, fun _ => rows⟩ fun accept =>
          Nat.not_lt.mpr accept.rows noBatch.short
        have answered := (agrees.same output).mpr (gemmTernary_noBatch fits noBatch)
        rw [failed] at answered
        cases answered
      · exact agrees.returns (settles.panics fun fine => fits fine.1)

/-- Four input rows and no weight rows: the direct product writes nothing, and the parallel one panics. -/
theorem noWeightRows_panics :
    gemmTiledPar (fun _ _ => 0) ([] : List Nat) (List.replicate 512 0) [] 4 0 128 = .error .panic ∧
      Dispatcher.gemm (fun _ _ => 0) ([] : List Nat) (List.replicate 512 0) [] 4 0 128 = .ok [] ∧
        ¬∀ (variant : GemmVariant) (dot : RowDot Nat Nat) (blocks input output : List Nat) (m nRows k : Nat),
          Agrees (m * nRows) output (variant.run dot blocks input output m nRows k)
            (variant.direct dot blocks input output m nRows k) := by
  have inputs : 4 * 128 ≤ (List.replicate 512 0).length := by rw [List.length_replicate]
  have panics : gemmTiledPar (fun _ _ => 0) ([] : List Nat) (List.replicate 512 0) [] 4 0 128 = .error .panic :=
    gemmTiledPar_settles.panics fun fine => fine.2 ⟨rfl, by decide, by decide, inputs⟩
  have direct : Dispatcher.gemm (fun _ _ => 0) ([] : List Nat) (List.replicate 512 0) [] 4 0 128 = .ok [] :=
    (gemmKernel_settles []).answers ⟨fun _ => ⟨by decide, fun _ => by decide⟩, fun _ => by decide⟩
      ⟨⟨by decide, inputs, Nat.le_refl 0⟩, Nat.zero_le _⟩
  refine ⟨panics, direct, fun agrees => ?_⟩
  exact (agrees .tiledPar (fun _ _ => 0) [] (List.replicate 512 0) [] 4 0 128).returns panics

end Pictor.Kernels
