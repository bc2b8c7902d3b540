import Pictor.Construction.Kernels.Products

namespace Pictor.Kernels
open Slice Tiling

/-- A call panics unless its sizes fit, and answers exactly if they are accepted. -/
structure Settles {Answer : Type} (fits accepted : Prop) (result : KernelResult Answer) (answer : Answer) : Prop where
  panics : ¬fits → result = .error .panic
  refuses : fits → ¬accepted → ∃ error, result = .error (.error error)
  answers : fits → accepted → result = .ok answer

namespace Settles

variable {Answer Next : Type} {fits accepted fits' accepted' : Prop} {result : KernelResult Answer} {answer : Answer}
  {next : Answer → KernelResult Next} {last : Next}

theorem refuseIf (refused : Prop) [Decidable refused] (error : KernelError) :
    Settles True (¬refused) (Kernels.refuseIf refused error) () where
  panics never := (never trivial).elim
  refuses _ refused := ⟨error, if_pos (not_not.mp refused)⟩
  answers _ accepted := if_neg accepted

theorem sizeMul (first second : Nat) :
    Settles (first * second < 2 ^ 64) True (Kernels.sizeMul first second) (first * second) where
  panics large := if_neg large
  refuses _ never := (never trivial).elim
  answers fits _ := if_pos fits

theorem pure (answer : Answer) : Settles True True (Pure.pure answer : KernelResult Answer) answer where
  panics never := (never trivial).elim
  refuses _ never := (never trivial).elim
  answers _ _ := rfl

/-- The later sizes count once the earlier ones are accepted. -/
theorem bind (first : Settles fits accepted result answer)
    (later : fits → accepted → Settles fits' accepted' (next answer) last) :
    Settles (fits ∧ (accepted → fits')) (accepted ∧ accepted') (result >>= next) last where
  panics large := by
    by_cases before : fits
    · have both : accepted ∧ ¬fits' := by tauto
      rw [first.answers before both.1]
      exact (later before both.1).panics both.2
    · rw [first.panics before]
      rfl
  refuses fine refused := by
    by_cases before : accepted
    · rw [first.answers fine.1 before]
      exact (later fine.1 before).refuses (fine.2 before) fun after => refused ⟨before, after⟩
    · obtain ⟨error, failed⟩ := first.refuses fine.1 before
      rw [failed]
      exact ⟨error, rfl⟩
  answers fine both := by
    rw [first.answers fine.1 both.1]
    exact (later fine.1 both.1).answers (fine.2 both.1) both.2

theorem congr (settles : Settles fits accepted result answer) (same : fits ↔ fits')
    (same' : fits → (accepted ↔ accepted')) : Settles fits' accepted' result answer where
  panics large := settles.panics fun fine => large (same.mp fine)
  refuses fine refused := settles.refuses (same.mpr fine) fun accept => refused ((same' (same.mpr fine)).mp accept)
  answers fine accept := settles.answers (same.mpr fine) ((same' (same.mpr fine)).mpr accept)

/-- A program that follows accepted checks settles as they do. -/
theorem andThen (first : Settles fits accepted result answer)
    (run : fits → accepted → next answer = .ok last) : Settles fits accepted (result >>= next) last where
  panics large := by
    rw [first.panics large]
    rfl
  refuses fine refused := by
    obtain ⟨error, failed⟩ := first.refuses fine refused
    rw [failed]
    exact ⟨error, rfl⟩
  answers fine accept := by
    rw [first.answers fine accept]
    exact run fine accept

end Settles

variable {Block Scalar : Type} (blockSize : Nat) (shortBlocks : ShortBlocks) (blocks : List Block)
  (input output : List Scalar) (m nRows k : Nat)

/-- The sizes of a matrix-vector product that a kernel accepts. -/
structure GemvAccepted : Prop where
  aligned : k % blockSize = 0
  inputs : k ≤ input.length
  outputs : nRows ≤ output.length
  rows : nRows * (k / blockSize) ≤ blocks.length

/-- No size of a matrix-vector product overflows before a check refuses it. -/
def GemvFits : Prop :=
  k % blockSize = 0 → k ≤ input.length → nRows ≤ output.length → nRows * (k / blockSize) < 2 ^ 64

/-- The buffers of a matrix product that a kernel accepts. -/
structure GemmBuffersAccepted : Prop where
  aligned : k % blockSize = 0
  inputs : m * k ≤ input.length
  outputs : m * nRows ≤ output.length

/-- The sizes of a matrix product that a kernel accepts. -/
structure GemmAccepted : Prop extends GemmBuffersAccepted blockSize input output m nRows k where
  rows : nRows * (k / blockSize) ≤ blocks.length

def GemmBuffersFit : Prop :=
  k % blockSize = 0 → m * k < 2 ^ 64 ∧ (m * k ≤ input.length → m * nRows < 2 ^ 64)

/-- No size of a matrix product overflows before a check refuses it. -/
def GemmFits : Prop :=
  GemmBuffersFit blockSize input m nRows k ∧
    (GemmBuffersAccepted blockSize input output m nRows k → nRows * (k / blockSize) < 2 ^ 64)

/-- A product of several input rows without weight rows passes the checks. -/
structure GemmEmptyRows : Prop where
  noRows : nRows = 0
  batch : 4 ≤ m
  aligned : k % blockSize = 0
  inputs : m * k ≤ input.length

theorem checkBlocks_settles : Settles (nRows * (k / blockSize) < 2 ^ 64) (nRows * (k / blockSize) ≤ blocks.length)
      (checkBlocks blockSize shortBlocks blocks nRows k) (k / blockSize) := by
  rw [checkBlocks]
  refine Settles.congr (.bind (.sizeMul _ _) fun _ _ => .bind (.refuseIf _ _) fun _ _ => .pure _) (by tauto) fun _ => ?_
  rw [Nat.not_lt]
  tauto

theorem checkGemv_settles :
    Settles (GemvFits blockSize input output nRows k) (GemvAccepted blockSize blocks input output nRows k)
      (checkGemv blockSize shortBlocks blocks input output nRows k) (k / blockSize) := by
  rw [checkGemv, checkGemvBuffers]
  refine Settles.congr (.bind (.bind (.refuseIf _ _) fun _ _ => .bind (.refuseIf _ _) fun _ _ => .refuseIf _ _)
    fun _ _ => checkBlocks_settles blockSize shortBlocks blocks nRows k) ?_ fun _ => ?_
  · simp only [GemvFits, not_not, Nat.not_lt]
    tauto
  · simp only [ne_eq, not_not, Nat.not_lt]
    exact ⟨fun ⟨⟨aligned, inputs, outputs⟩, rows⟩ => ⟨aligned, inputs, outputs, rows⟩,
      fun accept => ⟨⟨accept.aligned, accept.inputs, accept.outputs⟩, accept.rows⟩⟩

theorem checkGemmBuffers_settles :
    Settles (GemmBuffersFit blockSize input m nRows k) (GemmBuffersAccepted blockSize input output m nRows k)
      (checkGemmBuffers blockSize input output m nRows k) () := by
  rw [checkGemmBuffers]
  refine Settles.congr (.bind (.refuseIf _ _) fun _ _ => .bind (.sizeMul _ _) fun _ _ => .bind (.refuseIf _ _)
    fun _ _ => .bind (.sizeMul _ _) fun _ _ => .refuseIf _ _) ?_ fun _ => ?_
  · simp only [GemmBuffersFit, not_not, Nat.not_lt, ne_eq]
    tauto
  · simp only [ne_eq, not_not, Nat.not_lt, true_and]
    exact ⟨fun ⟨aligned, inputs, outputs⟩ => ⟨aligned, inputs, outputs⟩,
      fun accept => ⟨accept.aligned, accept.inputs, accept.outputs⟩⟩

theorem checkGemm_settles :
    Settles (GemmFits blockSize input output m nRows k) (GemmAccepted blockSize blocks input output m nRows k)
      (checkGemm blockSize shortBlocks blocks input output m nRows k) (k / blockSize) := by
  refine (Settles.bind (checkGemmBuffers_settles blockSize input output m nRows k) fun _ _ =>
    (checkBlocks_settles blockSize shortBlocks blocks nRows k)).congr Iff.rfl fun _ => ?_
  exact ⟨fun ⟨buffers, rows⟩ => ⟨buffers, rows⟩, fun accept => ⟨accept.toGemmBuffersAccepted, accept.rows⟩⟩

end Pictor.Kernels

namespace Pictor.Kernels
open Slice Tiling List

variable {Block Scalar : Type} (dot : RowDot Block Scalar)

/-- The output of a row of a matrix-vector product. -/
def gemvValue (blocks : List Block) (input : List Scalar) (blocksPerRow k row : Nat) : Scalar :=
  dot (slice blocks (row * blocksPerRow) blocksPerRow) (input.take k)

/-- The output of a matrix product at an index of its buffer. -/
def gemmValue (blocks : List Block) (input : List Scalar) (blocksPerRow nRows k index : Nat) : Scalar :=
  dot (slice blocks (index % nRows * blocksPerRow) blocksPerRow) (slice input (index / nRows * k) k)

variable {dot} {blocks : List Block} {input : List Scalar} {blockSize blocksPerRow m nRows rows start k length : Nat}
  {shortBlocks : ShortBlocks} {Element Failure : Type} {failure : Failure} {elements : List Element} {row mi : Nat}

theorem part_ok {stop : Nat} (ordered : start ≤ stop) (inside : stop ≤ elements.length) :
    part failure elements start stop = .ok (slice elements start (stop - start)) :=
  if_pos ⟨ordered, inside⟩

/-- A row of a matrix lies inside the matrix. -/
theorem part_row {count size : Nat} (below : row < count) (inside : count * size ≤ elements.length) :
    part failure elements (row * size) ((row + 1) * size) = .ok (slice elements (row * size) size) := by
  have last : (row + 1) * size ≤ count * size := Nat.mul_le_mul_right size below
  rw [part_ok (Nat.mul_le_mul_right size (Nat.le_succ row)) (Nat.le_trans last inside), Nat.succ_mul,
    Nat.add_sub_cancel_left]

/-- The blocks of some rows of a matrix. -/
theorem part_rows (below : start + rows ≤ nRows) (inside : nRows * blocksPerRow ≤ blocks.length) :
    part failure blocks (start * blocksPerRow) ((start + rows) * blocksPerRow) =
      .ok (slice blocks (start * blocksPerRow) (rows * blocksPerRow)) := by
  have last : (start + rows) * blocksPerRow ≤ nRows * blocksPerRow := Nat.mul_le_mul_right _ below
  rw [part_ok (Nat.mul_le_mul_right _ (Nat.le_add_right start rows)) (Nat.le_trans last inside), Nat.add_mul,
    Nat.add_sub_cancel_left]

theorem length_rows (below : start + rows ≤ nRows) (inside : nRows * blocksPerRow ≤ blocks.length) :
    (slice blocks (start * blocksPerRow) (rows * blocksPerRow)).length = rows * blocksPerRow := by
  have last : (start + rows) * blocksPerRow ≤ nRows * blocksPerRow := Nat.mul_le_mul_right _ below
  rw [Nat.add_mul] at last
  exact length_slice (by omega)

/-- A row among some rows of a matrix is a row of the matrix. -/
theorem slice_rows (below : row < rows) :
    slice (slice blocks (start * blocksPerRow) (rows * blocksPerRow)) (row * blocksPerRow) blocksPerRow =
      slice blocks ((start + row) * blocksPerRow) blocksPerRow := by
  rw [slice_slice (row_le below _), Nat.add_mul]

/-- The loop over the rows of a matrix-vector product. -/
theorem gemvLoop_paints (outputs : nRows ≤ length) (inside : nRows * blocksPerRow ≤ blocks.length) :
    Paints length (Set.Iio nRows) (gemvValue dot blocks input blocksPerRow k) fun output =>
      (List.range nRows).foldlM (fun output row => do
        let rowBlocks ← part KernelFailure.panic blocks (row * blocksPerRow) ((row + 1) * blocksPerRow)
        setAt .panic row (dot rowBlocks (input.take k)) output) output := by
  have whole : Set.Iio nRows = Set.univ ∩ Set.preimage id (Set.Ico 0 (0 + nRows)) := by
    ext row
    simp
  rw [whole]
  refine Paints.range 0 nRows fun row below => ?_
  rw [Set.univ_inter, Nat.zero_add, part_row below inside]
  exact Paints.setAt (Nat.lt_of_lt_of_le below outputs)

theorem gemvKernel_settles (output : List Scalar) :
    Settles (GemvFits blockSize input output nRows k) (GemvAccepted blockSize blocks input output nRows k)
      (gemvKernel dot blockSize shortBlocks blocks input output nRows k)
      (paint (Set.Iio nRows) (gemvValue dot blocks input (k / blockSize) k) output) :=
  (checkGemv_settles blockSize shortBlocks blocks input output nRows k).andThen fun _ accept =>
    gemvLoop_paints accept.outputs accept.rows output rfl

/-- A matrix-vector product of some rows writes the values of these rows. -/
theorem gemvKernel_rows (aligned : k % blockSize = 0) (inputs : k ≤ input.length)
    (fits : nRows * (k / blockSize) < 2 ^ 64) (inside : nRows * (k / blockSize) ≤ blocks.length)
    (below : start + rows ≤ nRows) :
    Paints rows Set.univ (fun row => gemvValue dot blocks input (k / blockSize) k (start + row)) fun tile =>
      gemvKernel dot blockSize shortBlocks (slice blocks (start * (k / blockSize)) (rows * (k / blockSize)))
        input tile rows k := by
  intro tile full
  have small : rows * (k / blockSize) ≤ nRows * (k / blockSize) := Nat.mul_le_mul_right _ (by omega)
  change gemvKernel dot blockSize shortBlocks _ input tile rows k = _
  rw [(gemvKernel_settles tile).answers (fun _ _ _ => by omega)
    ⟨aligned, inputs, by omega, by rw [length_rows below inside]⟩]
  congr 1
  refine paint_congr (fun row below => ?_) fun row below _ => ?_
  · rw [full] at below
    exact iff_of_true below trivial
  · rw [full] at below
    rw [gemvValue, gemvValue, slice_rows below]

/-- The outputs of an input row and some weight rows stand together. -/
theorem mem_band {index mi : Nat} (below : start + rows ≤ nRows) :
    mi * nRows + start ≤ index ∧ index < mi * nRows + start + rows ↔
      (start ≤ index % nRows ∧ index % nRows < start + rows) ∧ index / nRows = mi := by
  constructor
  · intro ⟨first, last⟩
    obtain ⟨place, rfl⟩ := Nat.exists_eq_add_of_le (Nat.le_of_add_right_le first)
    have inside : place < nRows := by omega
    rw [Nat.mul_comm, Nat.mul_add_div (by omega), Nat.div_eq_of_lt inside, Nat.mul_add_mod,
      Nat.mod_eq_of_lt inside]
    omega
  · intro ⟨place, row⟩
    have whole := Nat.div_add_mod index nRows
    rw [row, Nat.mul_comm] at whole
    omega

theorem band (below : start + rows ≤ nRows) : Set.Ico (mi * nRows + start) (mi * nRows + start + rows) =
      Set.preimage (· % nRows) (Set.Ico start (start + rows)) ∩ Set.preimage (· / nRows) {mi} := by
  ext index
  exact mem_band below

/-- The outputs of a matrix product are the first ones of its buffer. -/
theorem grid : Set.Iio (m * nRows) = Set.preimage (· % nRows) (Set.Ico 0 (0 + nRows)) ∩ Set.preimage (· / nRows) (Set.Ico 0 (0 + m)) := by
  ext index
  simp only [Nat.zero_add, Set.mem_Iio, Set.mem_inter_iff, Set.mem_preimage, Set.mem_Ico, Nat.zero_le, true_and]
  constructor
  · intro inside
    have positive : 0 < nRows := Nat.pos_of_ne_zero fun none => by
      rw [none, Nat.mul_zero] at inside
      exact absurd inside (Nat.not_lt_zero index)
    exact ⟨Nat.mod_lt index positive, (Nat.div_lt_iff_lt_mul positive).mpr inside⟩
  · intro ⟨place, row⟩
    exact (Nat.div_lt_iff_lt_mul (Nat.pos_of_ne_zero (by omega))).mp row

/-- The loop over the input rows and the weight rows of a matrix product. -/
theorem gemmLoop_paints (inputs : m * k ≤ input.length) (outputs : m * nRows ≤ length)
    (inside : nRows * blocksPerRow ≤ blocks.length) :
    Paints length (Set.Iio (m * nRows)) (gemmValue dot blocks input blocksPerRow nRows k) fun output =>
      (List.range m).foldlM (fun output mi => do
        let inputRow ← part KernelFailure.panic input (mi * k) ((mi + 1) * k)
        (List.range nRows).foldlM (fun output ni => do
          let rowBlocks ← part .panic blocks (ni * blocksPerRow) ((ni + 1) * blocksPerRow)
          setAt .panic (mi * nRows + ni) (dot rowBlocks inputRow) output) output) output := by
  rw [grid]
  refine Paints.range 0 m fun mi row => ?_
  rw [part_row row inputs, Set.inter_comm]
  refine Paints.range 0 nRows fun ni place => ?_
  rw [part_row place inside, Nat.zero_add, Nat.zero_add]
  have last := row_le row nRows
  have here : ∀ index, index = mi * nRows + ni ↔ index / nRows = mi ∧ index % nRows = ni := by
    intro index
    have := @mem_band nRows 1 ni index mi (by omega)
    omega
  obtain ⟨div, mod⟩ := (here (mi * nRows + ni)).mp rfl
  have value : dot (slice blocks (ni * blocksPerRow) blocksPerRow) (slice input (mi * k) k) =
      gemmValue dot blocks input blocksPerRow nRows k (mi * nRows + ni) := by
    rw [gemmValue, div, mod]
  have region : {mi * nRows + ni} = Set.preimage (· / nRows) {mi} ∩ Set.preimage (· % nRows) {ni} := by
    ext index
    exact here index
  rw [← region]
  change Paints length _ _ fun output => setAt _ _ (dot _ _) output
  rw [value]
  exact Paints.setAt (by omega)

theorem gemmKernel_settles (output : List Scalar) :
    Settles (GemmFits blockSize input output m nRows k) (GemmAccepted blockSize blocks input output m nRows k)
      (gemmKernel dot blockSize shortBlocks blocks input output m nRows k)
      (paint (Set.Iio (m * nRows)) (gemmValue dot blocks input (k / blockSize) nRows k) output) :=
  (checkGemm_settles blockSize shortBlocks blocks input output m nRows k).andThen fun _ accept =>
    gemmLoop_paints accept.inputs accept.outputs accept.rows output rfl

/-- A matrix product of one input row and some weight rows writes the values of these rows. -/
theorem gemmKernel_rows (aligned : k % blockSize = 0) (row : mi < m) (inputs : m * k ≤ input.length)
    (small : m * k < 2 ^ 64) (short : m * nRows < 2 ^ 64) (fits : nRows * (k / blockSize) < 2 ^ 64)
    (inside : nRows * (k / blockSize) ≤ blocks.length) (below : start + rows ≤ nRows) : Paints rows Set.univ
      (fun place => gemmValue dot blocks input (k / blockSize) nRows k (mi * nRows + start + place)) fun tile =>
      gemmKernel dot blockSize shortBlocks (slice blocks (start * (k / blockSize)) (rows * (k / blockSize)))
        (slice input (mi * k) k) tile 1 rows k := by
  intro tile full
  have full' := length_row row inputs
  have weights : rows * (k / blockSize) ≤ nRows * (k / blockSize) := Nat.mul_le_mul_right _ (by omega)
  have one : k ≤ m * k := Nat.le_mul_of_pos_left k (Nat.zero_lt_of_lt row)
  have one' : nRows ≤ m * nRows := Nat.le_mul_of_pos_left nRows (Nat.zero_lt_of_lt row)
  change gemmKernel dot blockSize shortBlocks _ _ tile 1 rows k = _
  rw [(gemmKernel_settles tile).answers
    ⟨fun _ => ⟨by omega, fun _ => by omega⟩, fun _ => by omega⟩
    ⟨⟨aligned, by omega, by omega⟩, by rw [length_rows below inside]⟩]
  congr 1
  refine paint_congr (fun place below => ?_) fun place within _ => ?_
  · rw [full] at below
    refine iff_of_true ?_ trivial
    rw [Set.mem_Iio]
    omega
  · rw [full] at within
    obtain ⟨_, div⟩ := (@mem_band nRows rows start (mi * nRows + start + place) mi below).mp (by omega)
    have place' : (mi * nRows + start + place) % nRows = start + place := by
      rw [Nat.add_assoc, Nat.mul_comm, Nat.mul_add_mod, Nat.mod_eq_of_lt (by omega)]
    rw [gemmValue, gemmValue, Nat.mod_eq_of_lt within, Nat.div_eq_of_lt within, slice_rows within, div, place',
      Nat.zero_mul, slice_slice (by omega), Nat.add_zero]

/-- A matrix product of one matrix-vector product for each input row writes the values of the product. -/
theorem gemmRows_paints (aligned : k % blockSize = 0) (inputs : m * k ≤ input.length)
    (outputs : m * nRows ≤ length) (fits : nRows * (k / blockSize) < 2 ^ 64)
    (inside : nRows * (k / blockSize) ≤ blocks.length) :
    Paints length (Set.Iio (m * nRows)) (gemmValue dot blocks input (k / blockSize) nRows k) fun output =>
      gemmRows (gemvKernel dot blockSize shortBlocks) blocks input output m nRows k := by
  rw [grid]
  refine Paints.range 0 m fun batch row => ?_
  rw [part_row row inputs, Nat.zero_add batch]
  have last := row_le row nRows
  rw [← band (by omega), Nat.add_zero, ← Nat.succ_mul]
  refine Paints.part ?_ (Nat.mul_le_mul_right _ (Nat.le_succ batch)) (by rw [Nat.succ_mul]; omega)
  rw [Nat.succ_mul, Nat.add_sub_cancel_left]
  intro outputRow full
  have full' := length_row row inputs
  change gemvKernel dot blockSize shortBlocks blocks _ outputRow nRows k = _
  rw [(gemvKernel_settles outputRow).answers (fun _ _ _ => fits) ⟨aligned, by omega, by omega, inside⟩]
  congr 1
  refine paint_congr (fun place below => ?_) fun place within _ => ?_
  · rw [full] at below
    exact iff_of_true below trivial
  · rw [full] at within
    obtain ⟨_, div⟩ := (@mem_band nRows nRows 0 (batch * nRows + place) batch (by omega)).mp (by omega)
    rw [gemvValue, gemmValue, div, Nat.mul_comm batch nRows, Nat.mul_add_mod, Nat.mod_eq_of_lt within,
      take_of_length_le (by omega)]

variable (dot) in
/-- A matrix product answers the calls whose sizes are accepted. -/
def GemmAnswers (gemm : Gemm Block Scalar) (blockSize : Nat) : Prop :=
  ∀ blocks input output m nRows k, GemmFits blockSize input output m nRows k →
    GemmAccepted blockSize blocks input output m nRows k →
      gemm blocks input output m nRows k =
        .ok (paint (Set.Iio (m * nRows)) (gemmValue dot blocks input (k / blockSize) nRows k) output)

theorem gemmFp8_settles (output : List Scalar) :
    Settles (GemmFits blockSize input output m nRows k) (GemmAccepted blockSize blocks input output m nRows k) (do
        let _ ← checkGemm blockSize shortBlocks blocks input output m nRows k
        gemmRows (gemvKernel dot blockSize shortBlocks) blocks input output m nRows k)
      (paint (Set.Iio (m * nRows)) (gemmValue dot blocks input (k / blockSize) nRows k) output) :=
  (checkGemm_settles blockSize shortBlocks blocks input output m nRows k).andThen fun fits accept =>
    gemmRows_paints accept.aligned accept.inputs accept.outputs (fits.2 accept.toGemmBuffersAccepted) accept.rows
      output rfl

theorem gemmTernary_answers (tier : KernelTier) : GemmAnswers dot (Dispatcher.gemmTernaryG128 dot tier) qkTq2_0G128 := by
  intro blocks input output m nRows k fits accept
  cases tier with
  | reference =>
      change checkGemmBuffers qkTq2_0G128 input output m nRows k >>= _ = _
      rw [(checkGemmBuffers_settles qkTq2_0G128 input output m nRows k).answers fits.1 accept.toGemmBuffersAccepted]
      exact gemmRows_paints accept.aligned accept.inputs accept.outputs (fits.2 accept.toGemmBuffersAccepted)
        accept.rows output rfl
  | avx2 => exact (gemmKernel_settles output).answers fits accept
  | avx512 => exact (gemmKernel_settles output).answers fits accept
  | neon => exact (gemmKernel_settles output).answers fits accept

end Pictor.Kernels
