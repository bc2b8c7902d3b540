import Pictor.Proof.Gguf.ReaderFormat

namespace Pictor.Gguf
open BuildArith List

/-- The number of elements over the natural numbers. -/
def elements (shape : List UInt64) : Nat := (shape.map UInt64.toNat).prod

/-- The dimensions are multiplied from the left, and no product on the way is too large. -/
def Countable (shape : List UInt64) : Prop := ∀ front, front <+: shape → elements front < 2 ^ 64

/-- The number of bytes over the natural numbers. -/
def byteSize (info : TensorInfo) : Nat :=
  (elements info.shape + info.tensorType.blockSize.toNat - 1) / info.tensorType.blockSize.toNat *
    info.tensorType.blockBytes.toNat

theorem elements_cons (dim : UInt64) (shape : List UInt64) :
    elements (dim :: shape) = dim.toNat * elements shape := by
  rw [elements, map_cons, prod_cons, elements]

theorem foldlM_mul (shape : List UInt64) (count : UInt64) :
    (∃ result, shape.foldlM (fun count dim => Build.debug.mul Failure.panic count dim) count = .ok result ∧
      result.toNat = count.toNat * elements shape ∧
      ∀ front, front <+: shape → count.toNat * elements front < 2 ^ 64) ∨
    (shape.foldlM (fun count dim => Build.debug.mul Failure.panic count dim) count = .error .panic ∧
      ¬∀ front, front <+: shape → count.toNat * elements front < 2 ^ 64) := by
  induction shape generalizing count with
  | nil =>
      refine Or.inl ⟨count, rfl, by simp [elements], ?_⟩
      intro front empty
      rw [prefix_nil.mp empty]
      simpa [elements] using count.toNat_lt
  | cons dim shape ih =>
      have fronts : (∀ front, front <+: dim :: shape → count.toNat * elements front < 2 ^ 64) ↔
          ∀ front, front <+: shape → count.toNat * dim.toNat * elements front < 2 ^ 64 := by
        constructor
        · intro all front inside
          have whole := all (dim :: front) (prefix_cons_inj dim |>.mpr inside)
          rwa [elements_cons, ← Nat.mul_assoc] at whole
        · intro all front inside
          rcases prefix_cons_iff.mp inside with rfl | ⟨shorter, rfl, shortened⟩
          · simpa [elements] using count.toNat_lt
          · rw [elements_cons, ← Nat.mul_assoc]
            exact all shorter shortened
      rw [foldlM_cons, elements_cons, ← Nat.mul_assoc, fronts]
      by_cases fits : count.toNat * dim.toNat < 2 ^ 64
      · obtain ⟨product, exactly⟩ : Build.debug.mul Failure.panic count dim = .ok (count * dim) ∧
            (count * dim).toNat = count.toNat * dim.toNat := Build.mul_fits fits
        rw [product, ← exactly]
        exact ih (count * dim)
      · rw [Build.mul_overflows (Nat.not_lt.mp fits)]
        refine Or.inr ⟨rfl, fun all => fits ?_⟩
        simpa [elements] using all [] List.nil_prefix

/-- A product that is too large on the way panics. -/
theorem elementCount_debug (shape : List UInt64) :
    (∃ result, TensorInfo.elementCount .debug shape = .ok result ∧ result.toNat = elements shape ∧ Countable shape) ∨
    (TensorInfo.elementCount .debug shape = .error .panic ∧ ¬Countable shape) := by
  have start := foldlM_mul shape 1
  simp only [UInt64.toNat_one, Nat.one_mul] at start
  exact start

theorem divCeil_toNat (count size : UInt64) (positive : 0 < size.toNat) :
    (TensorInfo.divCeil count size).toNat = (count.toNat + size.toNat - 1) / size.toNat := by
  have split := Nat.div_add_mod count.toNat size.toNat
  have small := Nat.mod_lt count.toNat positive
  have bound := count.toNat_lt
  rw [TensorInfo.divCeil]
  generalize quotient : count.toNat / size.toNat = q at split
  generalize remainder : count.toNat % size.toNat = r at split small
  have exactly : (count % size = 0) ↔ r = 0 := by
    rw [← UInt64.toNat_inj, UInt64.toNat_mod, remainder]
    rfl
  by_cases whole : r = 0
  · rw [if_pos (exactly.mpr whole), UInt64.toNat_div, quotient, ← split, whole]
    symm
    apply Nat.div_eq_of_lt_le
    · rw [Nat.mul_comm q]
      omega
    · rw [Nat.succ_mul, Nat.mul_comm q]
      omega
  · have next : (count.toNat + size.toNat - 1) / size.toNat = q + 1 := by
      apply Nat.div_eq_of_lt_le
      · rw [Nat.succ_mul, Nat.mul_comm q]
        omega
      · rw [Nat.succ_mul, Nat.succ_mul, Nat.mul_comm q]
        omega
    have quotientSmall : q ≤ size.toNat * q := Nat.le_mul_of_pos_left q positive
    rw [if_neg (fun same => whole (exactly.mp same)), UInt64.toNat_add, UInt64.toNat_div, quotient, next]
    apply Nat.mod_eq_of_lt
    change q + 1 < 2 ^ 64
    omega

/-- A size that is too large panics. -/
theorem dataSize_debug (info : TensorInfo) :
    (∃ size, info.dataSize .debug = .ok size ∧ size.toNat = byteSize info ∧ Countable info.shape ∧
      byteSize info < 2 ^ 64) ∨
    (info.dataSize .debug = .error .panic ∧ ¬(Countable info.shape ∧ byteSize info < 2 ^ 64)) := by
  have positive : 0 < info.tensorType.blockSize.toNat := by
    cases info.tensorType <;> decide
  rcases elementCount_debug info.shape with ⟨count, counted, same, countable⟩ | ⟨failed, uncountable⟩
  · have blocks := divCeil_toNat count info.tensorType.blockSize positive
    rw [same] at blocks
    rw [TensorInfo.dataSize, counted]
    simp only [bind, Except.bind]
    by_cases fits : byteSize info < 2 ^ 64
    · have product : (TensorInfo.divCeil count info.tensorType.blockSize).toNat *
          info.tensorType.blockBytes.toNat < 2 ^ 64 := by
        rw [blocks]
        exact fits
      obtain ⟨multiplied, exactly⟩ : Build.debug.mul Failure.panic _ _ = .ok _ ∧ _ := Build.mul_fits product
      refine Or.inl ⟨_, multiplied, ?_, countable, fits⟩
      rw [exactly, blocks, byteSize]
    · refine Or.inr ⟨Build.mul_overflows ?_, fun both => fits both.2⟩
      rw [blocks]
      exact Nat.not_lt.mp fits
  · refine Or.inr ⟨?_, fun both => uncountable both.1⟩
    rw [TensorInfo.dataSize, failed]
    rfl

end Pictor.Gguf

namespace Pictor.Gguf
open BuildArith LittleEndian Slice List

/-- The largest length of a byte slice. -/
def isizeMax : Nat := 2 ^ 63 - 1

/-- The tensor data end below the bound of an address. -/
def Fits (dataOffset : Nat) (info : TensorInfo) : Prop :=
  Countable info.shape ∧ dataOffset + info.offset.toNat + byteSize info < 2 ^ 64

/-- The start of the tensor data, as a mask of the alignment gives it. -/
def maskUp (offset : Nat) (alignment : UInt64) : UInt64 :=
  (UInt64.ofNat offset + alignment - 1) &&& ~~~(alignment - 1)

/-- The call returns a value or an error. On success the bytes are those of the tensor. -/
def SafeData (file : GgufFile) (name : List Char) : Prop :=
  file.tensorData .debug name ≠ .error .panic ∧
    ∀ bytes, file.tensorData .debug name = .ok bytes → ∃ info, file.tensors.lookup name = some info ∧
      bytes = slice file.data (file.dataOffset.toNat + info.offset.toNat) (byteSize info) ∧
      bytes.length = byteSize info

/-- No operation of the reader leaves its range. -/
def Safe (data : List UInt8) : Prop :=
  GgufFile.parse .debug data ≠ .error .panic ∧
    ∀ file, GgufFile.parse .debug data = .ok file → file.data = data ∧ ∀ name, SafeData file name

variable {file : GgufFile} {name : List Char} {info : TensorInfo} {layout : Layout} {used : List UInt8}

variable (found : file.tensors.lookup name = some info)
include found

theorem tensorData_unfit (unfit : ¬Fits file.dataOffset.toNat info) :
    file.tensorData .debug name = .error .panic := by
  rw [GgufFile.tensorData, found]
  by_cases starts : file.dataOffset.toNat + info.offset.toNat < 2 ^ 64
  · obtain ⟨started, start⟩ : Build.debug.add Failure.panic file.dataOffset info.offset = .ok _ ∧ _ :=
      Build.add_fits starts
    simp only [bind, Except.bind, started]
    rcases dataSize_debug info with ⟨size, sized, same, countable, _⟩ | ⟨failed, _⟩
    · rw [sized]
      have overflow : 2 ^ 64 ≤ (file.dataOffset + info.offset).toNat + size.toNat := by
        rw [start, same]
        exact Nat.not_lt.mp fun fits => unfit ⟨countable, fits⟩
      simp only [Build.add_overflows overflow]
    · rw [failed]
  · simp only [bind, Except.bind, Build.add_overflows (Nat.not_lt.mp starts)]

/-- A tensor whose size is known is a slice of the file, or ends behind the file. -/
theorem tensorData_sized {build : Build} {size : UInt64} (sized : info.dataSize build = .ok size)
    (fits : file.dataOffset.toNat + info.offset.toNat + size.toNat < 2 ^ 64) :
    file.tensorData build name = if file.dataOffset.toNat + info.offset.toNat + size.toNat > file.data.length then
        .error (.error (.unexpectedEof (file.dataOffset.toNat + info.offset.toNat + size.toNat)))
      else .ok (slice file.data (file.dataOffset.toNat + info.offset.toNat) size.toNat) := by
  have starts : file.dataOffset.toNat + info.offset.toNat < 2 ^ 64 := by omega
  obtain ⟨started, start⟩ : build.add Failure.panic file.dataOffset info.offset = .ok _ ∧ _ :=
    Build.add_fits starts
  have ends : (file.dataOffset + info.offset).toNat + size.toNat < 2 ^ 64 := by
    rw [start]
    exact fits
  obtain ⟨stopped, stop⟩ : build.add Failure.panic (file.dataOffset + info.offset) size = .ok _ ∧ _ :=
    Build.add_fits ends
  rw [start] at stop
  have ordered : ¬file.dataOffset + info.offset + size < file.dataOffset + info.offset := by
    rw [UInt64.lt_iff_toNat_lt, stop, start]
    omega
  rw [GgufFile.tensorData, found]
  simp only [bind, Except.bind, started, sized, stopped, stop, start, if_neg ordered]
  rw [Nat.add_sub_cancel_left]
  rfl

theorem tensorData_fits (fits : Fits file.dataOffset.toNat info) :
    file.tensorData .debug name = if file.dataOffset.toNat + info.offset.toNat + byteSize info > file.data.length then
        .error (.error (.unexpectedEof (file.dataOffset.toNat + info.offset.toNat + byteSize info)))
      else .ok (slice file.data (file.dataOffset.toNat + info.offset.toNat) (byteSize info)) := by
  obtain ⟨countable, inside⟩ := fits
  rcases dataSize_debug info with ⟨size, sized, same, _⟩ | ⟨_, unfit⟩
  · rw [← same] at inside ⊢
    exact tensorData_sized found sized inside
  · exact absurd ⟨countable, by omega⟩ unfit

omit found

/-- The calls for a tensor are safe exactly if it fits. -/
theorem safeData_iff :
    SafeData file name ↔ ∀ info, file.tensors.lookup name = some info → Fits file.dataOffset.toNat info := by
  constructor
  · intro safe info found
    by_contra unfit
    exact safe.1 (tensorData_unfit found unfit)
  · intro fits
    cases found : file.tensors.lookup name with
    | none =>
        have missing : file.tensorData .debug name = .error (.error (.tensorNotFound name)) := by
          rw [GgufFile.tensorData, found]
          rfl
        rw [SafeData, missing]
        exact ⟨nofun, nofun⟩
    | some info =>
        rw [SafeData, tensorData_fits found (fits info found)]
        split
        case isTrue => exact ⟨nofun, nofun⟩
        case isFalse inside =>
            refine ⟨nofun, fun bytes read => ⟨info, found, (Except.ok.inj read).symm, ?_⟩⟩
            rw [← Except.ok.inj read, slice, length_take, length_drop]
            omega

/-- The alignment panics exactly if it is zero. -/
theorem alignOffset_debug {offset : Nat} {alignment : UInt64} (positive : 0 < offset)
    (addressable : offset ≤ isizeMax) (small : alignment.toNat < 2 ^ 32) :
    alignOffset .debug (UInt64.ofNat offset) alignment =
      if alignment = 0 then .error .panic else .ok (maskUp offset alignment) := by
  have size : (UInt64.ofNat offset).toNat = offset :=
    UInt64.toNat_ofNat_of_lt' (lt_of_le_of_lt addressable (by decide))
  have fits : (UInt64.ofNat offset).toNat + alignment.toNat < 2 ^ 64 := by
    rw [size]
    unfold isizeMax at addressable
    omega
  obtain ⟨added, sum⟩ : Build.debug.add Failure.panic (UInt64.ofNat offset) alignment = .ok _ ∧ _ :=
    Build.add_fits fits
  have one : (1 : UInt64) ≤ UInt64.ofNat offset + alignment := by
    rw [UInt64.le_iff_toNat_le, sum, size]
    change 1 ≤ _
    omega
  obtain ⟨lowered, _⟩ : Build.debug.sub Failure.panic (UInt64.ofNat offset + alignment) 1 = .ok _ ∧ _ :=
    Build.sub_fits one
  rw [alignOffset, added]
  simp only [bind, Except.bind, lowered]
  by_cases zero : alignment = 0
  · rw [if_pos zero, zero, Build.sub_overflows (by decide)]
  · have some : (1 : UInt64) ≤ alignment := by
      rw [UInt64.le_iff_toNat_le]
      exact Nat.one_le_iff_ne_zero.mpr fun none => zero (UInt64.toNat_inj.mp none)
    obtain ⟨masked, _⟩ : Build.debug.sub Failure.panic alignment 1 = .ok _ ∧ _ := Build.sub_fits some
    rw [if_neg zero, masked]
    rfl

theorem alignment_small (metadata : MetadataStore) : (GgufFile.alignment metadata).toNat < 2 ^ 32 := by
  rw [GgufFile.alignment, UInt32.toNat_toUInt64]
  exact UInt32.toNat_lt _

theorem parse_debug (encoded : EncodesLayout layout used) (rest : List UInt8)
    (addressable : (used ++ rest).length ≤ isizeMax) : GgufFile.parse .debug (used ++ rest) =
      if GgufFile.alignment layout.metadataStore = 0 then .error .panic
      else .ok (layout.file (used ++ rest) (maskUp used.length (GgufFile.alignment layout.metadataStore))) := by
  rw [length_append] at addressable
  rw [parse_encoded encoded, alignOffset_debug (encodesLayout_positive encoded) (by omega) (alignment_small _)]
  split <;> rfl

/-- A file that fits in memory is safe exactly if its alignment is not zero and its tensors fit. -/
theorem safe_iff (data : List UInt8) (addressable : data.length ≤ isizeMax) :
    Safe data ↔ ∀ layout used rest, EncodesLayout layout used → data = used ++ rest →
      GgufFile.alignment layout.metadataStore ≠ 0 ∧ ∀ name info, layout.tensorStore.lookup name = some info →
          Fits (maskUp used.length (GgufFile.alignment layout.metadataStore)).toNat info := by
  constructor
  · rintro ⟨returns, safe⟩ layout used rest encoded rfl
    rw [parse_debug encoded rest addressable] at returns safe
    by_cases zero : GgufFile.alignment layout.metadataStore = 0
    · rw [if_pos zero] at returns
      exact absurd rfl returns
    · rw [if_neg zero] at safe
      exact ⟨zero, fun name => safeData_iff.mp ((safe _ rfl).2 name)⟩
  · intro condition
    by_cases has : HasLayout data
    · obtain ⟨layout, used, rest, encoded, rfl⟩ := has
      obtain ⟨positive, fits⟩ := condition layout used rest encoded rfl
      rw [Safe, parse_debug encoded rest addressable, if_neg positive]
      refine ⟨nofun, ?_⟩
      rintro _ ⟨⟩
      exact ⟨rfl, fun name => safeData_iff.mpr (fits name)⟩
    · obtain ⟨error, failed⟩ := parse_unencoded has .debug
      rw [Safe, failed]
      exact ⟨nofun, nofun⟩

/-- A header of version three without metadata and without tensors. -/
def emptyFile : List UInt8 := leBytes 4 0x46554747 ++ leBytes 4 3 ++ leBytes 8 0 ++ leBytes 8 0

theorem emptyFile_layout {rest : List UInt8} (encoded : EncodesLayout layout used) (same : emptyFile = used ++ rest) :
    layout = ⟨3, [], []⟩ := by
  have empty : EncodesLayout ⟨3, [], []⟩ emptyFile :=
    ⟨⟨3, 0, 0⟩, emptyFile, [], [], ⟨Or.inr rfl, by decide⟩, rfl, rfl, rfl, encodesAll_nil.mpr rfl,
      encodesAll_nil.mpr rfl, by decide⟩
  exact (layout_unique encoded empty (same.symm.trans (append_nil _).symm)).1

theorem emptyFile_safe : Safe emptyFile := by
  rw [safe_iff emptyFile (by decide)]
  intro layout used rest encoded same
  obtain rfl := emptyFile_layout encoded same
  refine ⟨by decide, fun name info found => ?_⟩
  cases found

/-- A file whose alignment is zero. -/
def zeroAlignment : List UInt8 :=
  leBytes 4 0x46554747 ++ leBytes 4 3 ++ leBytes 8 0 ++ leBytes 8 1 ++ leBytes 8 17 ++
    Utf8.encode "general.alignment".toList ++ leBytes 4 4 ++ leBytes 4 0

theorem zeroAlignment_panics : ¬Safe zeroAlignment := by
  have panics : (match GgufFile.parse .debug zeroAlignment with
    | .error .panic => true
    | _ => false) = true := by decide
  rintro ⟨returns, _⟩
  split at panics
  case h_1 same => exact returns same
  case h_2 => cases panics

end Pictor.Gguf
