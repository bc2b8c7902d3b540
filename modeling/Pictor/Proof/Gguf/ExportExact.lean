import Pictor.Construction.Gguf.Export
import Pictor.Proof.Gguf.WriterExact

namespace Pictor.Gguf
open Appending BuildArith GgufWriter Outcome Slice List

variable {build : Build} {writer : GgufWriter} {tensors : List TensorEntry} {bytes : List UInt8}

theorem dataOffsets_total {offsets : List UInt64} {running : UInt64} (sized : ∀ entry ∈ tensors, entry.Sized build)
    (small : running.toNat + (tensors.flatMap TensorEntry.data).length < 2 ^ 64) :
    ∃ result, tensors.foldlM (fun (dataOffsets, runningOffset) entry => do
      let expected ← TensorEntry.expected build entry
      let next ← build.add WriteFailure.panic runningOffset expected
      return (dataOffsets ++ [runningOffset], next)) (offsets, running) = .ok result := by
  induction tensors generalizing offsets running with
  | nil => exact ⟨_, rfl⟩
  | cons entry tensors ih =>
      obtain ⟨⟨size, expected, same⟩, others⟩ := forall_mem_cons.mp sized
      rw [flatMap_cons, length_append, same] at small
      obtain ⟨added, sum⟩ : build.add WriteFailure.panic running size = .ok _ ∧ _ := Build.add_fits (by omega)
      rw [foldlM_cons]
      simp only [expected, added, ok_bind]
      exact ih others (by rw [sum]; omega)

/-- A writer whose tensors have their sizes does not fail. -/
theorem toBytes_total (flat : ∀ entry ∈ writer.tensors, entry.shape.length < 2 ^ 32)
    (sized : ∀ entry ∈ writer.tensors, entry.Sized build) (small : writer.tensorBytes.length < 2 ^ 64) :
    ∃ bytes, writer.toBytes build = .ok bytes := by
  obtain ⟨⟨offsets, running⟩, placing⟩ := @dataOffsets_total build writer.tensors [] 0 sized (by
    change 0 + writer.tensorBytes.length < 2 ^ 64
    rwa [Nat.zero_add])
  obtain ⟨added, same, count, _⟩ := dataOffsets_ok placing
  obtain rfl := same
  obtain ⟨metadata, _, _, entries⟩ := entries_writes writer.entries 24
  obtain ⟨infos, _, _, listed⟩ := tensorInfos_writes count sized flat (24 + (writer.entries.map entrySize).sum)
  obtain ⟨last, data⟩ := tensorBytes_writes writer.tensors
    (writer.headSize + padding writer.headSize writer.alignment)
  have wrote : ∃ bytes, Writes (writer.write build) last bytes := by
    apply Exists.intro
    rw [write]
    apply (writes_writeLeU32 _).bind
    apply (writes_writeLeU32 _).bind
    apply (writes_writeLeU64 _).bind
    apply (writes_writeLeU64 _).bind
    apply entries.bind
    apply (writes_lift placing).bind
    apply listed.bind
    exact (padToAlignment_writes _ _).bind data
  obtain ⟨bytes, wrote⟩ := wrote
  refine ⟨bytes, ?_⟩
  rw [toBytes, wrote []]
  rfl

/-- A file that a reader parses was written under its limits. -/
theorem limited_of_parse {file : GgufFile} (flat : ∀ entry ∈ writer.tensors, entry.shape.length < 2 ^ 32)
    (written : writer.toBytes build = .ok bytes) (addressable : bytes.length ≤ isizeMax)
    (parsed : GgufFile.parse build bytes = .ok file) :
    (∀ entry ∈ writer.metadata, EntryLimited entry) ∧ ∀ entry ∈ writer.tensors, entry.Limited := by
  obtain ⟨_, head, _, same, rendered⟩ := toBytes_renders flat written
  obtain ⟨layout, used, rest, _, encoded, split, _, _⟩ := parse_ok.mp parsed
  have largest : isizeMax < 2 ^ 64 := by decide
  have small : head.length < 2 ^ 64 := by
    have total := congrArg List.length same
    rw [length_append] at total
    omega
  exact ((rendered addressable).settled small layout used _ rest encoded (same.symm.trans split)).1

/-- The default alignment is read as it is written. -/
theorem roundTrips_default (limited : writer.Limited) (plain : writer.alignment = 32)
    (absent : alignmentKey ∉ writer.metadata.map Prod.fst) (written : writer.toBytes build = .ok bytes)
    (addressable : bytes.length ≤ isizeMax) : RoundTrips build writer bytes := by
  have stored : writer.storedAlignment = 32 := by
    have none : writer.metadata.find? (·.1 = alignmentKey) = none := by
      rw [find?_eq_none]
      intro entry member same
      exact absent (of_decide_eq_true same ▸ mem_map_of_mem member)
    rw [storedAlignment, none, plain]
    rfl
  obtain ⟨_, head, _, size, same⟩ := toBytes_ok limited written addressable
  have largest : isizeMax < 2 ^ 63 := by decide
  have total := congrArg List.length same
  rw [length_append, length_append, length_replicate, size] at total
  have start := @readStart_powerOfTwo writer 5 plain (by rw [stored, plain]; rfl) (by rw [plain]; omega)
  have reached : writer.writtenStart + writer.tensorBytes.length = bytes.length := by
    rw [writtenStart]
    omega
  have stands := @standsAt_padded _ writer.readStart head writer.tensorBytes
    (padding writer.headSize writer.alignment) 0 (by rw [start, writtenStart, size]; exact Nat.le_add_right _ _)
  rw [← same, size] at stands
  rw [roundTrips_standsAt limited written addressable (by omega), stored]
  exact ⟨fun both => absurd both.2 (by decide), Or.inr (stands.mpr (Or.inl start))⟩

end Pictor.Gguf

namespace Pictor.Export
open BuildArith Gguf LittleEndian Outcome Slice
open List (append_assoc append_nil find?_eq_none flatMap_cons flatMap_map foldlM_cons foldl_cons forall_mem_cons head?_cons length_append
  length_drop length_flatMap length_map length_pos_iff length_range length_replicate length_take map_congr_left map_cons
  map_const' mem_map_of_mem mem_range prod_cons prod_singleton singleton_append sum_replicate_nat)

/-- The data of a tensor fill its shape, and its vector fits in the memory. -/
structure WeightTensor.WellFormed (tensor : WeightTensor) : Prop where
  nonempty : tensor.data ≠ []
  shaped : tensor.data.length = tensor.shape.prod
  rank : tensor.shape.length ≤ maxTensorDims
  held : tensor.data.length * 4 ≤ isizeMax

/-- The type under which a format is stored. -/
def ExportFormat.tensorType : ExportFormat → TensorType
  | float32 | int8PerChannel => .f32
  | q1_0G128 => .q1_0G128
  | ternaryG128 => .tq2_0_g128
  | fp8E4M3 => .f8_E4M3
  | fp8E5M2 => .f8_E5M2
  | q4_0 => .q4_0
  | q8_0 => .q8_0
  | q4K => .q4_K
  | q5K => .q5_K
  | q6K => .q6_K

variable {build : Build} {encoders : Encoders} {config : ExportConfig} {tensor : WeightTensor} {size : Nat}

theorem length_padded (positive : 0 < size) (data : List UInt32) :
    (padded size data).length = (data.length + size - 1) / size * size := by
  have split := Nat.div_add_mod data.length size
  have small := Nat.mod_lt data.length positive
  rw [padded]
  by_cases whole : data.length % size = 0
  · have same : (data.length + size - 1) / size = data.length / size := by
      apply Nat.div_eq_of_lt_le
      · rw [Nat.mul_comm]
        omega
      · rw [Nat.succ_mul, Nat.mul_comm]
        omega
    rw [if_pos whole, same, Nat.mul_comm]
    omega
  · have next : (data.length + size - 1) / size = data.length / size + 1 := by
      apply Nat.div_eq_of_lt_le
      · rw [Nat.succ_mul, Nat.mul_comm]
        omega
      · rw [Nat.succ_mul, Nat.succ_mul, Nat.mul_comm]
        omega
    rw [if_neg whole, length_append, length_replicate, next, Nat.succ_mul, Nat.mul_comm]
    omega

/-- The blocks of padded data have the size that is estimated. -/
theorem quantizeBlocks_padded {blockBytes : Nat} (positive : 0 < size) (encode : List UInt32 → Vector UInt8 blockBytes)
    (reason : List Char) (data : List UInt32) :
    ∃ bytes, quantizeBlocks size encode reason (padded size data) = .ok bytes ∧
      bytes.length = blocksSize size blockBytes data.length := by
  rw [quantizeBlocks, length_padded positive, if_neg (not_not.mpr (Nat.mul_mod_left _ _)),
    Nat.mul_div_cancel _ positive]
  refine ⟨_, rfl, ?_⟩
  simp only [length_flatMap, Vector.length_toList, map_const', length_range, sum_replicate_nat,
    blocksSize]

theorem numChannels_dvd (formed : tensor.WellFormed) :
    tensor.data.length % tensor.numChannels = 0 ∧ 0 < tensor.numChannels := by
  have some : 0 < tensor.shape.prod := by
    rw [← formed.shaped]
    exact length_pos_iff.mpr formed.nonempty
  rw [WeightTensor.numChannels, formed.shaped]
  cases shape : tensor.shape with
  | nil => exact ⟨Nat.mod_one _, Nat.one_pos⟩
  | cons dim shape =>
      rw [shape, prod_cons] at some
      have first : 0 < dim := Nat.pos_of_mul_pos_right some
      rw [head?_cons, Option.getD_some, Nat.max_eq_left first, prod_cons]
      exact ⟨Nat.mul_mod_right _ _, first⟩

theorem quantizePerChannel_ok {weights : List UInt32} {channels : Nat} (some : weights ≠ [])
    (divides : weights.length % channels = 0) (positive : 0 < channels) :
    ∃ int8, quantizePerChannel encoders weights channels = .ok int8 ∧ int8.data.length = weights.length ∧
      int8.scales.length = channels := by
  obtain ⟨size, product⟩ := Nat.dvd_of_mod_eq_zero divides
  have long := length_pos_iff.mpr some
  have sizePositive : 0 < size := by
    rw [product] at long
    exact Nat.pos_of_mul_pos_left long
  have chunk : weights.length / channels = size := by
    rw [product, Nat.mul_div_cancel_left _ positive]
  have count : weights.length / size = channels := by
    rw [product, Nat.mul_div_cancel _ sizePositive]
  have nonempty : weights.isEmpty = false := by
    simpa using some
  have sizes : ∀ index ∈ List.range channels, (slice weights (index * size) size).length = size := by
    intro index member
    rw [mem_range, ← count] at member
    exact length_row member (Nat.div_mul_le_self _ _)
  rw [quantizePerChannel, nonempty, if_neg (by decide), if_neg (not_not.mpr divides), chunk]
  dsimp only
  rw [count]
  refine ⟨_, rfl, ?_, ?_⟩
  · rw [flatMap_map, length_flatMap]
    simp only [Vector.length_toList]
    rw [map_congr_left sizes, map_const', sum_replicate_nat, length_range, product]
  · simp only [length_map, length_range]

/-- The encoding succeeds with the size that is estimated. -/
theorem encodeTensor_ok (formed : tensor.WellFormed) :
    ∃ bytes, encodeTensor encoders tensor config = .ok (bytes, (effectiveFormat tensor.name config).tensorType) ∧
      bytes.length = estimateTensorSize tensor config := by
  have nonempty : tensor.data.isEmpty = false := by
    simpa using formed.nonempty
  rw [encodeTensor, estimateTensorSize, nonempty, if_neg (by decide)]
  have blocks {size blockBytes : Nat} (positive : 0 < size) (encode : List UInt32 → Vector UInt8 blockBytes)
      (reason : List Char) (type : TensorType) :
      ∃ bytes, quantized tensor type (quantizeBlocks size encode reason (padded size tensor.data)) = .ok (bytes, type) ∧
        bytes.length = blocksSize size blockBytes tensor.data.length := by
    obtain ⟨bytes, encoded, full⟩ := quantizeBlocks_padded positive encode reason tensor.data
    rw [encoded]
    exact ⟨bytes, rfl, full⟩
  cases effectiveFormat tensor.name config with
  | float32 =>
      refine ⟨_, rfl, ?_⟩
      simp only [length_flatMap, length_leBytes, map_const', sum_replicate_nat]
  | int8PerChannel =>
      obtain ⟨divides, positive⟩ := numChannels_dvd formed
      obtain ⟨int8, encoded, full, count⟩ := @quantizePerChannel_ok encoders _ _ formed.nonempty divides positive
      dsimp only
      rw [encoded]
      refine ⟨_, rfl, ?_⟩
      simp only [length_append, length_map, length_flatMap, length_leBytes, map_const',
        sum_replicate_nat, full, count]
  | q1_0G128 => exact blocks (by decide) _ _ _
  | ternaryG128 => exact blocks (by decide) _ _ _
  | fp8E4M3 => exact blocks (by decide) _ _ _
  | fp8E5M2 => exact blocks (by decide) _ _ _
  | q4_0 => exact blocks (by decide) _ _ _
  | q8_0 => exact blocks (by decide) _ _ _
  | q4K => exact blocks (by decide) _ _ _
  | q5K => exact blocks (by decide) _ _ _
  | q6K => exact blocks (by decide) _ _ _

/-- The product of a shape is computed without an overflow. -/
theorem foldlM_shape {shape : List Nat} {count : UInt64} (started : 0 < count.toNat) (positive : 0 < shape.prod)
    (fits : count.toNat * shape.prod < 2 ^ 64) :
    ∃ total, (shape.map UInt64.ofNat).foldlM (fun count dim => build.mul WriteFailure.panic count dim) count = .ok total ∧
      total.toNat = count.toNat * shape.prod := by
  induction shape generalizing count with
  | nil => exact ⟨count, rfl, (Nat.mul_one _).symm⟩
  | cons dim shape ih =>
      rw [prod_cons] at positive fits ⊢
      rw [← Nat.mul_assoc] at fits ⊢
      have first : 0 < dim := Nat.pos_of_mul_pos_right positive
      have later : 0 < shape.prod := Nat.pos_of_mul_pos_left positive
      have below : count.toNat * dim < 2 ^ 64 := lt_of_le_of_lt (Nat.le_mul_of_pos_right _ later) fits
      have small : dim < 2 ^ 64 := lt_of_le_of_lt (Nat.le_mul_of_pos_left _ started) below
      have same : (UInt64.ofNat dim).toNat = dim := UInt64.toNat_ofNat_of_lt' small
      obtain ⟨product, exactly⟩ : build.mul WriteFailure.panic count (UInt64.ofNat dim) = .ok _ ∧ _ :=
        Build.mul_fits (by rwa [same])
      rw [same] at exactly
      rw [map_cons, foldlM_cons, product, ok_bind, ← exactly]
      exact ih (by rw [exactly]; exact Nat.mul_pos started first) later (by rwa [exactly])

/-- The writer expects the blocks of all elements. -/
theorem expected_blocks {entry : TensorEntry} {shape : List Nat} (shaped : entry.shape = shape.map UInt64.ofNat)
    (positive : 0 < shape.prod) (held : shape.prod < 2 ^ 62) : ∃ size, entry.expected build = .ok size ∧
      size.toNat = blocksSize entry.tensorType.blockSize.toNat entry.tensorType.blockBytes.toNat shape.prod := by
  obtain ⟨total, counted, same⟩ := @foldlM_shape build shape 1 (by decide) positive
    (by rw [UInt64.toNat_one]; omega)
  rw [UInt64.toNat_one, Nat.one_mul] at same
  have blocks := divCeil_toNat total entry.tensorType.blockSize (by cases entry.tensorType <;> decide)
  rw [same] at blocks
  have fits : (TensorInfo.divCeil total entry.tensorType.blockSize).toNat * entry.tensorType.blockBytes.toNat <
      2 ^ 64 := by
    rw [blocks]
    cases entry.tensorType <;> simp only [TensorType.blockSize, TensorType.blockBytes, UInt64.reduceToNat] <;> omega
  obtain ⟨product, exactly⟩ : build.mul WriteFailure.panic _ _ = .ok _ ∧ _ := Build.mul_fits fits
  refine ⟨_, ?_, exactly.trans ?_⟩
  · rw [TensorEntry.expected, shaped, counted]
    exact product
  · rw [blocks, blocksSize]

/-- The entry that a tensor is exported as. -/
def Exports (encoders : Encoders) (config : ExportConfig) (tensor : WeightTensor) (entry : TensorEntry) : Prop :=
  encodeTensor encoders tensor config = .ok (entry.data, entry.tensorType) ∧ entry.name = tensor.name ∧
    entry.shape = exportedShape tensor config entry.data

theorem int8_iff : (config.format = .int8PerChannel ∧ shouldKeepFp32 tensor.name config = false) ↔
    effectiveFormat tensor.name config = .int8PerChannel := by
  rw [effectiveFormat]
  cases shouldKeepFp32 tensor.name config with
  | true => exact ⟨fun both => (nomatch both.2), fun other => (nomatch other)⟩
  | false => exact ⟨And.left, fun same => ⟨same, rfl⟩⟩

/-- An INT8 blob has the size of its floats exactly if its weights are a multiple of four. The scales always are. -/
theorem exports_sized {entry : TensorEntry} (formed : tensor.WellFormed)
    (exported : Exports encoders config tensor entry) : entry.Sized build ↔
      (effectiveFormat tensor.name config = .int8PerChannel → tensor.data.length % 4 = 0) := by
  obtain ⟨encoded, _, shaped⟩ := exported
  obtain ⟨bytes, encoded', full⟩ := @encodeTensor_ok encoders config tensor formed
  obtain ⟨rfl, type⟩ := Prod.mk.inj (Except.ok.inj (encoded'.symm.trans encoded))
  have some := length_pos_iff.mpr formed.nonempty
  have nonempty : tensor.data.isEmpty = false := by
    simpa using formed.nonempty
  have held := formed.held
  have largest : isizeMax < 2 ^ 63 := by decide
  rw [estimateTensorSize, nonempty, if_neg (by decide)] at full
  rw [exportedShape] at shaped
  by_cases int8 : effectiveFormat tensor.name config = .int8PerChannel
  · rw [if_pos (int8_iff.mpr int8)] at shaped
    rw [int8] at full type
    change entry.data.length = tensor.data.length + tensor.numChannels * 4 at full
    obtain ⟨divides, positive⟩ := numChannels_dvd formed
    have few : tensor.numChannels ≤ tensor.data.length := Nat.le_of_dvd some (Nat.dvd_of_mod_eq_zero divides)
    have single : [entry.data.length / 4].prod = entry.data.length / 4 := prod_singleton
    obtain ⟨size, expected, same⟩ := @expected_blocks build entry [entry.data.length / 4] shaped
      (by rw [single]; omega) (by rw [single]; omega)
    rw [single, ← type, blocksSize] at same
    change size.toNat = (entry.data.length / 4 + 1 - 1) / 1 * 4 at same
    rw [Nat.div_one, Nat.add_sub_cancel] at same
    constructor
    · rintro ⟨size', expected', whole⟩ _
      rw [expected] at expected'
      cases expected'
      omega
    · intro whole
      exact ⟨size, expected, by have := whole int8; omega⟩
  · rw [if_neg fun both => int8 (int8_iff.mp both)] at shaped
    obtain ⟨size, expected, same⟩ := @expected_blocks build entry tensor.shape shaped
      (by rwa [← formed.shaped]) (by rw [← formed.shaped]; omega)
    refine iff_of_true ⟨size, expected, ?_⟩ fun other => absurd other int8
    rw [same, full, ← type, ← formed.shaped]
    cases format : effectiveFormat tensor.name config with
    | int8PerChannel => exact absurd format int8
    | float32 =>
        rw [blocksSize]
        change _ = (tensor.data.length + 1 - 1) / 1 * 4
        rw [Nat.div_one, Nat.add_sub_cancel]
    | _ => rfl

end Pictor.Export

namespace Pictor.Export
open BuildArith Gguf GgufWriter Outcome List

variable {build : Build} {encoders : Encoders} {config : ExportConfig} {tensors : List WeightTensor}
  {archMetadata : List (List Char × MetadataWriteValue)} {writer : GgufWriter}

def standardKeys : List (List Char) :=
  ["general.name".toList, "general.version".toList, "general.description".toList,
    "general.quantization_version".toList]

/-- The names and the keys are distinct, and the file fits in the memory. -/
structure Exportable (encoders : Encoders) (tensors : List WeightTensor) (config : ExportConfig)
    (archMetadata : List (List Char × MetadataWriteValue)) : Prop where
  formed : ∀ tensor ∈ tensors, tensor.WellFormed
  names : (tensors.map WeightTensor.name).Nodup
  keys : (archMetadata.map Prod.fst).Nodup
  fresh : ∀ key ∈ archMetadata.map Prod.fst, key ∉ standardKeys ∧ key ≠ alignmentKey
  held : ∀ writer, exportWriter encoders tensors config archMetadata = .ok writer →
    writer.writtenStart + writer.tensorBytes.length ≤ isizeMax

/-- All texts and arrays keep the limits of the reader. -/
structure WithinLimits (tensors : List WeightTensor) (config : ExportConfig)
    (archMetadata : List (List Char × MetadataWriteValue)) : Prop where
  modelName : Short config.modelName
  modelVersion : Short config.modelVersion
  description : ∀ desc, config.description = some desc → Short desc
  archMetadata : ∀ entry ∈ archMetadata, EntryLimited entry
  names : ∀ tensor ∈ tensors, Short tensor.name

/-- The number of bytes that the encoding of a tensor takes. -/
def encodedLength (encoders : Encoders) (config : ExportConfig) (tensor : WeightTensor) : Nat :=
  match encodeTensor encoders tensor config with
  | .ok (bytes, _) => bytes.length
  | .error _ => 0

/-- The export is parsed, every tensor is found with its encoding, and the estimate is the size of all encodings. -/
def LoadsBack (build : Build) (encoders : Encoders) (tensors : List WeightTensor) (config : ExportConfig)
    (archMetadata : List (List Char × MetadataWriteValue)) : Prop :=
  ∃ bytes file, exportToGguf build encoders tensors config archMetadata = .ok bytes ∧
    GgufFile.parse build bytes = .ok file ∧
    (∀ tensor ∈ tensors, ∃ data tensorType info, encodeTensor encoders tensor config = .ok (data, tensorType) ∧
      file.tensors.lookup tensor.name = some info ∧ file.tensorData build tensor.name = .ok data ∧
      (effectiveFormat tensor.name config ≠ .int8PerChannel → info.shape = tensor.shape.map UInt64.ofNat)) ∧
    estimateExportSize tensors config = (tensors.map (encodedLength encoders config)).sum

theorem foldl_addMetadata (entries : List (List Char × MetadataWriteValue)) (writer : GgufWriter) :
    entries.foldl (fun writer entry => writer.addMetadata entry.1 entry.2) writer =
      { writer with metadata := writer.metadata ++ entries } := by
  induction entries generalizing writer with
  | nil => rw [append_nil]; rfl
  | cons entry entries ih =>
      rw [foldl_cons, ih]
      simp only [addMetadata, append_assoc, singleton_append]

theorem foldlM_exportTensor (formed : ∀ tensor ∈ tensors, tensor.WellFormed) (writer : GgufWriter) :
    ∃ entries, List.Forall₂ (Exports encoders config) tensors entries ∧
      tensors.foldlM (exportTensor encoders config) writer =
        .ok { writer with tensors := writer.tensors ++ entries } := by
  induction tensors generalizing writer with
  | nil =>
      refine ⟨[], .nil, ?_⟩
      rw [append_nil]
      rfl
  | cons tensor tensors ih =>
      obtain ⟨first, later⟩ := forall_mem_cons.mp formed
      obtain ⟨bytes, encoded, _⟩ := @encodeTensor_ok encoders config tensor first
      have nonempty : tensor.data.isEmpty = false := by
        simpa using first.nonempty
      have step : exportTensor encoders config writer tensor = .ok (writer.addTensor ⟨tensor.name,
          exportedShape tensor config bytes, (effectiveFormat tensor.name config).tensorType, bytes⟩) := by
        rw [exportTensor, nonempty, if_neg (by decide), encoded]
        rfl
      obtain ⟨entries, exported, rest⟩ := ih later (writer.addTensor ⟨tensor.name,
        exportedShape tensor config bytes, (effectiveFormat tensor.name config).tensorType, bytes⟩)
      refine ⟨⟨tensor.name, exportedShape tensor config bytes, (effectiveFormat tensor.name config).tensorType,
        bytes⟩ :: entries, .cons ⟨encoded, rfl, rfl⟩ exported, ?_⟩
      rw [foldlM_cons, step, ok_bind, rest]
      simp only [addTensor, append_assoc, singleton_append]

/-- The writer of an export holds the standard entries, the given entries, and all tensors. -/
theorem exportWriter_ok (some : tensors ≠ []) (formed : ∀ tensor ∈ tensors, tensor.WellFormed) :
    ∃ writer, exportWriter encoders tensors config archMetadata = .ok writer ∧ writer.alignment = 32 ∧
      writer.metadata = (standardMetadata config).metadata ++ archMetadata ∧
      List.Forall₂ (Exports encoders config) tensors writer.tensors := by
  have nonempty : tensors.isEmpty = false := by
    simpa using some
  obtain ⟨entries, exported, ran⟩ := @foldlM_exportTensor encoders config tensors formed
    { standardMetadata config with metadata := (standardMetadata config).metadata ++ archMetadata }
  rw [exportWriter, nonempty, if_neg (by decide), foldl_addMetadata]
  refine ⟨_, ran, ?_, rfl, ?_⟩
  · rw [standardMetadata]
    cases config.description <;> rfl
  · have none : (standardMetadata config).tensors = [] := by
      rw [standardMetadata]
      cases config.description <;> rfl
    dsimp only
    rwa [none, nil_append]

theorem standardMetadata_keys (config : ExportConfig) :
    ((standardMetadata config).metadata.map Prod.fst).Sublist standardKeys := by
  rw [standardMetadata]
  cases config.description with
  | none =>
      change ["general.name".toList, "general.version".toList, "general.quantization_version".toList].Sublist
        standardKeys
      decide
  | some desc => exact List.Sublist.refl standardKeys

theorem standardKeys_short : ∀ key ∈ standardKeys, Short key := by
  unfold Short
  decide

/-- The standard entries keep the limits exactly if the texts of the configuration do. -/
theorem standardMetadata_limited (config : ExportConfig) :
    (∀ entry ∈ (standardMetadata config).metadata, EntryLimited entry) ↔
      Short config.modelName ∧ Short config.modelVersion ∧ ∀ desc, config.description = some desc → Short desc := by
  have value {key : List Char} (member : key ∈ standardKeys) (text : List Char) :
      EntryLimited (key, .str text) ↔ Short text := and_iff_right (standardKeys_short key member)
  have label : Short config.format.label.toList := by
    unfold Short
    cases config.format <;> decide
  rw [standardMetadata]
  cases config.description with
  | none =>
      change (∀ entry ∈ [("general.name".toList, MetadataWriteValue.str config.modelName),
        ("general.version".toList, .str config.modelVersion),
        ("general.quantization_version".toList, .str config.format.label.toList)], EntryLimited entry) ↔ _
      rw [forall_mem_cons, forall_mem_cons, forall_mem_singleton, value (by decide), value (by decide),
        value (by decide), and_iff_left label]
      exact and_congr_right fun _ => (and_iff_left fun _ none => (nomatch none)).symm
  | some desc =>
      change (∀ entry ∈ [("general.name".toList, MetadataWriteValue.str config.modelName),
        ("general.version".toList, .str config.modelVersion), ("general.description".toList, .str desc),
        ("general.quantization_version".toList, .str config.format.label.toList)], EntryLimited entry) ↔ _
      rw [forall_mem_cons, forall_mem_cons, forall_mem_cons, forall_mem_singleton,
        value (by decide), value (by decide), value (by decide), value (by decide), and_iff_left label]
      simp only [Option.some.injEq, forall_eq']

variable {tensor : WeightTensor} {entry : TensorEntry}

theorem exports_limited (formed : tensor.WellFormed) (exported : Exports encoders config tensor entry) :
    entry.shape.length ≤ maxTensorDims ∧ (entry.Limited ↔ Short tensor.name) := by
  obtain ⟨_, named, shaped⟩ := exported
  have rank : entry.shape.length ≤ maxTensorDims := by
    rw [shaped, exportedShape]
    split
    case isTrue =>
      have one : 1 ≤ maxTensorDims := by decide
      exact one
    case isFalse =>
      rw [length_map]
      exact formed.rank
  rw [TensorEntry.Limited, named]
  exact ⟨rank, and_iff_left rank⟩

/-- A property of the entries is one of the tensors. -/
theorem forall_exported {holds : TensorEntry → Prop} {holds' : WeightTensor → Prop} {entries : List TensorEntry}
    (exported : List.Forall₂ (Exports encoders config) tensors entries)
    (same : ∀ tensor ∈ tensors, ∀ entry, Exports encoders config tensor entry → (holds entry ↔ holds' tensor)) :
    (∀ entry ∈ entries, holds entry) ↔ ∀ tensor ∈ tensors, holds' tensor := by
  induction exported with
  | nil => exact iff_of_true (fun _ none => (nomatch none)) fun _ none => (nomatch none)
  | cons first _ ih =>
      rw [forall_mem_cons] at same
      rw [forall_mem_cons, forall_mem_cons, same.1 _ first, ih same.2]

/-- The entries of an export keep the limits of the reader exactly if its texts do. -/
theorem export_limited (formed : ∀ tensor ∈ tensors, tensor.WellFormed)
    (metadata : writer.metadata = (standardMetadata config).metadata ++ archMetadata)
    (exported : List.Forall₂ (Exports encoders config) tensors writer.tensors) :
    ((∀ entry ∈ writer.metadata, EntryLimited entry) ∧ ∀ entry ∈ writer.tensors, entry.Limited) ↔
      WithinLimits tensors config archMetadata := by
  rw [metadata, forall_mem_append, standardMetadata_limited,
    forall_exported exported fun tensor member entry first => (exports_limited (formed tensor member) first).2]
  constructor
  · rintro ⟨⟨⟨name, version, description⟩, arch⟩, names⟩
    exact ⟨name, version, description, arch, names⟩
  · intro limits
    exact ⟨⟨⟨limits.modelName, limits.modelVersion, limits.description⟩, limits.archMetadata⟩, limits.names⟩

variable {entries : List TensorEntry}

theorem exists_exported (exported : List.Forall₂ (Exports encoders config) tensors entries) (member : tensor ∈ tensors) :
    ∃ entry ∈ entries, Exports encoders config tensor entry := by
  induction exported with
  | nil => cases member
  | cons first _ ih =>
      rcases mem_cons.mp member with rfl | member
      · exact ⟨_, mem_cons_self, first⟩
      · obtain ⟨entry, inside, later⟩ := ih member
        exact ⟨entry, mem_cons_of_mem _ inside, later⟩

theorem export_names (exported : List.Forall₂ (Exports encoders config) tensors entries) :
    entries.map TensorEntry.name = tensors.map WeightTensor.name := by
  induction exported with
  | nil => rfl
  | cons first _ ih => rw [map_cons, map_cons, first.2.1, ih]

theorem export_keys (exportable : Exportable encoders tensors config archMetadata)
    (metadata : writer.metadata = (standardMetadata config).metadata ++ archMetadata) :
    (writer.metadata.map Prod.fst).Nodup ∧ alignmentKey ∉ writer.metadata.map Prod.fst := by
  have standard := standardMetadata_keys config
  rw [metadata, map_append]
  constructor
  · refine List.Nodup.append (standard.nodup (by decide)) exportable.keys ?_
    intro key first second
    exact (exportable.fresh key second).1 (standard.subset first)
  · rw [mem_append]
    rintro (first | second)
    · exact absurd (standard.subset first) (by decide)
    · exact (exportable.fresh _ second).2 rfl

/-- The estimate is the size of all encodings. -/
theorem estimate_exact (formed : ∀ tensor ∈ tensors, tensor.WellFormed) :
    estimateExportSize tensors config = (tensors.map (encodedLength encoders config)).sum := by
  rw [estimateExportSize]
  congr 1
  apply map_congr_left
  intro tensor member
  obtain ⟨bytes, encoded, full⟩ := @encodeTensor_ok encoders config tensor (formed tensor member)
  rw [encodedLength, encoded, ← full]

/-- The export runs the writer of its entries. -/
theorem exportToGguf_ok {bytes : List UInt8} (ran : exportWriter encoders tensors config archMetadata = .ok writer) :
    exportToGguf build encoders tensors config archMetadata = .ok bytes ↔ writer.toBytes build = .ok bytes := by
  rw [exportToGguf, ran]
  change (writer.toBytes build).mapError ExportFailure.ofWriter = .ok bytes ↔ _
  cases writer.toBytes build with
  | error failure => exact ⟨fun failed => (nomatch failed), fun failed => (nomatch failed)⟩
  | ok other => exact ⟨fun same => congrArg Except.ok (Except.ok.inj same), fun same => congrArg Except.ok (Except.ok.inj same)⟩

/-- An export is loaded back exactly if it has a tensor, keeps the limits of the reader, and each INT8 tensor has a
multiple of four weights. -/
theorem loadsBack_iff (exportable : Exportable encoders tensors config archMetadata) :
    LoadsBack build encoders tensors config archMetadata ↔
      tensors ≠ [] ∧ WithinLimits tensors config archMetadata ∧ ∀ tensor ∈ tensors,
        effectiveFormat tensor.name config = .int8PerChannel → tensor.data.length % 4 = 0 := by
  by_cases none : tensors = []
  · rw [none]
    exact iff_of_false (fun ⟨_, _, exported, _⟩ => nomatch exported) fun both => both.1 rfl
  obtain ⟨writer, ran, plain, metadata, exported⟩ :=
    @exportWriter_ok encoders config tensors archMetadata none exportable.formed
  obtain ⟨keys, absent⟩ := export_keys exportable metadata
  have largest : isizeMax < 2 ^ 63 := by decide
  have held := exportable.held writer ran
  have flat : ∀ entry ∈ writer.tensors, entry.shape.length < 2 ^ 32 := by
    rw [@forall_exported encoders config tensors _ (fun _ => True) _ exported fun tensor member entry first =>
      iff_true_intro (lt_of_le_of_lt (exports_limited (exportable.formed tensor member) first).1 (by decide))]
    exact fun _ _ => trivial
  have sized := @forall_exported encoders config tensors (TensorEntry.Sized build)
    (fun tensor => effectiveFormat tensor.name config = .int8PerChannel → tensor.data.length % 4 = 0) _ exported
    fun tensor member entry first => exports_sized (exportable.formed tensor member) first
  have limits := export_limited exportable.formed metadata exported
  have fits {bytes : List UInt8} (written : writer.toBytes build = .ok bytes) : bytes.length ≤ isizeMax := by
    obtain ⟨_, head, size, same, _⟩ := toBytes_renders flat written
    rw [same, length_append, length_append, length_replicate, size, ← Nat.add_assoc]
    exact held
  rw [and_iff_right none, ← sized, ← limits]
  constructor
  · rintro ⟨bytes, file, exported', parsed, _, _⟩
    have written := (exportToGguf_ok ran).mp exported'
    exact ⟨limited_of_parse flat written (fits written) parsed, (toBytes_renders flat written).1⟩
  · rintro ⟨limited, sizes⟩
    obtain ⟨bytes, written⟩ := toBytes_total flat sizes (by omega)
    have whole : writer.Limited :=
      ⟨keys, by rw [export_names exported]; exact exportable.names, by rw [plain]; decide, limited.1, limited.2⟩
    obtain ⟨file, parsed, _, _, _, found⟩ := roundTrips_default whole plain absent written (fits written)
    refine ⟨bytes, file, (exportToGguf_ok ran).mpr written, parsed, ?_, estimate_exact exportable.formed⟩
    intro tensor member
    obtain ⟨entry, inside, encoded, named, shaped⟩ := exists_exported exported member
    obtain ⟨info, stored, _, shape, _, data⟩ := found entry inside
    rw [named] at stored data
    refine ⟨entry.data, entry.tensorType, info, encoded, stored, data, fun other => ?_⟩
    rw [shape, shaped, exportedShape, if_neg fun both => other (int8_iff.mp both)]

/-- Encoders of weights that are all one. -/
def unitEncoders : Encoders where
  quantizeGroup _ := Vector.replicate 18 0
  blockTQ2_0_g128 _ := Vector.replicate 34 0
  blockFP8E4M3 _ := Vector.replicate 34 0
  blockFP8E5M2 _ := Vector.replicate 34 0
  blockQ4_0 _ := Vector.replicate 18 0
  blockQ8_0 _ := Vector.replicate 34 0
  blockQ4K _ := Vector.replicate 144 0
  blockQ5K _ := Vector.replicate 176 0
  blockQ6K _ := Vector.replicate 210 0
  quantizeChannel weights := (Vector.replicate weights.length 127, 0x3C010204)

/-- A vector of ones. -/
def unitTensor (count : Nat) : WeightTensor := ⟨['t'], List.replicate count 0x3F800000, [count]⟩

def int8Config : ExportConfig := ⟨.int8PerChannel, ['m'], ['1'], none, none, []⟩

theorem unitTensor_wellFormed {count : Nat} (positive : 0 < count) (few : count * 4 ≤ isizeMax) :
    (unitTensor count).WellFormed := by
  refine ⟨?_, ?_, ?_, ?_⟩
  · exact length_pos_iff.mp (by rwa [unitTensor, length_replicate])
  · rw [unitTensor, length_replicate, prod_singleton]
  · have one : 1 ≤ maxTensorDims := by decide
    exact one
  · rwa [unitTensor, length_replicate]

theorem fourUnits_exportable : Exportable unitEncoders [unitTensor 4] int8Config [] := by
  refine ⟨?_, nodup_singleton _, nodup_nil, nofun, ?_⟩
  · rw [forall_mem_singleton]
    exact unitTensor_wellFormed (by decide) (by decide)
  · intro writer ran
    cases ran
    decide

theorem fourUnits_loadBack : LoadsBack .debug unitEncoders [unitTensor 4] int8Config [] :=
  (loadsBack_iff fourUnits_exportable).mpr ⟨nofun, by
    constructor
    · unfold Short
      decide
    · unfold Short
      decide
    · exact nofun
    · exact nofun
    · unfold Short
      decide, by decide⟩

theorem oneUnit_exportable : Exportable unitEncoders [unitTensor 1] int8Config [] := by
  refine ⟨?_, nodup_singleton _, nodup_nil, nofun, ?_⟩
  · rw [forall_mem_singleton]
    exact unitTensor_wellFormed (by decide) (by decide)
  · intro writer ran
    cases ran
    decide

/-- The blob of one weight and its scale has five bytes, which no number of floats takes. -/
theorem oneUnit_lost : Exportable unitEncoders [unitTensor 1] int8Config [] ∧
    (∀ tensor ∈ [unitTensor 1], ∃ encoded, encodeTensor unitEncoders tensor int8Config = .ok encoded) ∧
    ¬LoadsBack .debug unitEncoders [unitTensor 1] int8Config [] := by
  refine ⟨oneUnit_exportable, ?_, ?_⟩
  · rw [forall_mem_singleton]
    exact ⟨_, rfl⟩
  · rintro ⟨bytes, file, exported, _⟩
    have failed : exportToGguf .debug unitEncoders [unitTensor 1] int8Config [] =
        .error (.error (.writeError "Tensor data size mismatch for t: expected 4, got 5".toList)) := by
      decide
    rw [failed] at exported
    cases exported

end Pictor.Export
