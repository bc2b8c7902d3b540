import Pictor.Proof.Storage.FileFormat

namespace Pictor.Storage
open LittleEndian Reading List

/-- The places of a tensor where room is reserved: behind the lengths of its name, its shape and its data. -/
inductive TensorNeeds : List UInt8 → Nat → Prop
  | name {len : Nat} : len < 2 ^ 32 → TensorNeeds (leBytes 4 len) len
  | shape {name : List Char} {len : Nat} : Utf8.size name < 2 ^ 32 → len < 2 ^ 32 →
      TensorNeeds (textBytes name ++ leBytes 4 len) (len * 8)
  | data {name : List Char} {shape : List UInt64} {len : Nat} : Utf8.size name < 2 ^ 32 → shape.length < 2 ^ 32 →
      len < 2 ^ 64 → TensorNeeds (textBytes name ++ (leBytes 4 shape.length ++
        shape.flatMap (fun dim => leBytes 8 dim.toNat) ++ leBytes 8 len)) (len * 4)

namespace CheckpointTensor

/-- The bytes of the shape behind its length. -/
def shapeBytes (shape : List UInt64) : List UInt8 :=
  leBytes 4 shape.length ++ shape.flatMap fun dim => leBytes 8 dim.toNat

def dataBytes (data : List UInt32) : List UInt8 := leBytes 8 data.length ++ data.flatMap fun bits => leBytes 4 bits.toNat

def bytes (tensor : CheckpointTensor) : List UInt8 :=
  textBytes tensor.name ++ (shapeBytes tensor.shape ++ dataBytes tensor.data)

/-- The lengths of a tensor fit their widths. -/
structure Fits (tensor : CheckpointTensor) : Prop where
  name : Utf8.size tensor.name < 2 ^ 32
  shape : tensor.shape.length < 2 ^ 32
  data : tensor.data.length < 2 ^ 64

end CheckpointTensor

open CheckpointTensor

theorem describes_readTensor : Describes Checkpoint.readTensor
    (fun tensor part => tensor.Fits ∧ part = tensor.bytes) TensorNeeds := by
  have shapes := (describes_len32 CheckpointError.truncatedData).counted
    (describes_elements (describes_u64 CheckpointError.truncatedData) fun dim => length_leBytes 8 dim.toNat)
  have datas := (describes_len64 CheckpointError.truncatedData).counted
    (describes_elements (describes_u32 CheckpointError.truncatedData) fun bits => length_leBytes 4 bits.toNat)
  apply ((describes_text CheckpointError.truncatedData .notUtf8).bind fun name _ _ => shapes.bind fun shape _ _ =>
    datas.bind fun data _ _ => describes_pure (⟨name, shape, data⟩ : CheckpointTensor)).congr
  · intro tensor part
    constructor
    · intro ⟨⟨name, shape, data⟩, same⟩
      refine ⟨tensor.name, _, _, ⟨name, rfl⟩, ⟨tensor.shape, _, _, ⟨shape, rfl⟩, ?_, rfl⟩, same⟩
      exact ⟨tensor.data, _, [], ⟨data, rfl⟩, ⟨rfl, rfl⟩, (append_nil _).symm⟩
    · intro chain
      obtain ⟨name, _, _, ⟨nameFits, rfl⟩, ⟨shape, _, _, ⟨shapeFits, rfl⟩,
        ⟨data, _, _, ⟨dataFits, rfl⟩, ⟨rfl, rfl⟩, rfl⟩, rfl⟩, same⟩ := chain
      rw [append_nil] at same
      exact ⟨⟨nameFits, shapeFits, dataFits⟩, same⟩
  · intro before size
    constructor
    · intro needed
      cases needed with
      | name small => exact .inl ⟨_, small, rfl, (Nat.mul_one _).symm⟩
      | shape nameFits small => exact .inr ⟨_, _, _, ⟨nameFits, rfl⟩, .inl ⟨_, small, rfl, rfl⟩, rfl⟩
      | data nameFits shapeFits small =>
          exact .inr ⟨_, _, _, ⟨nameFits, rfl⟩, .inr ⟨_, _, _, ⟨shapeFits, rfl⟩, .inl ⟨_, small, rfl, rfl⟩, rfl⟩, rfl⟩
    · intro chain
      rcases chain with ⟨len, small, rfl, rfl⟩ | ⟨name, _, _, ⟨nameFits, rfl⟩, later, rfl⟩
      · rw [Nat.mul_one]
        exact .name small
      rcases later with ⟨len, small, rfl, rfl⟩ | ⟨shape, _, _, ⟨shapeFits, rfl⟩, later, rfl⟩
      · exact .shape nameFits small
      rcases later with ⟨len, small, rfl, rfl⟩ | ⟨_, _, _, _, impossible, _⟩
      · exact .data nameFits shapeFits small
      · exact impossible.elim

/-- The first bytes of a checkpoint. -/
def headerBytes (flags : UInt64) (count : Nat) : List UInt8 :=
  checkpointMagic ++ (leBytes 4 1 ++ (leBytes 8 flags.toNat ++ leBytes 8 count))

/-- A header of version 1, with any flags. -/
def HeaderParts (head : UInt32 × Nat) (part : List UInt8) : Prop :=
  head.1 = 1 ∧ head.2 < 2 ^ 64 ∧ ∃ flags, part = headerBytes flags head.2

theorem version_eq_one {version : UInt32} : ¬(version = 0 ∨ version > 1) ↔ version = 1 := by
  rw [not_or, ← UInt32.toNat_inj, ← UInt32.toNat_inj, gt_iff_lt, UInt32.lt_iff_toNat_lt]
  change ¬version.toNat = 0 ∧ ¬1 < version.toNat ↔ version.toNat = 1
  omega

theorem describes_readHeader : Describes Checkpoint.readHeader HeaderParts fun _ _ => False := by
  apply ((describes_readExact (CheckpointError.truncatedData 4) 4).bind fun magic _ _ => (describes_require _).bind
    fun _ _ _ => (describes_u32 CheckpointError.truncatedData).bind fun version _ _ => (describes_require _).bind
    fun _ _ _ => (describes_u64 CheckpointError.truncatedData).bind fun _ _ _ =>
    (describes_len64 CheckpointError.truncatedData).bind fun count _ _ => describes_pure (version, count)).congr
  · intro head part
    constructor
    · intro ⟨one, small, flags, same⟩
      refine ⟨checkpointMagic, _, _, ⟨rfl, rfl⟩, ⟨(), [], _, ⟨if_pos rfl, rfl⟩, ?_, rfl⟩, same⟩
      refine ⟨1, _, _, ⟨True.intro, rfl⟩, ⟨(), [], _, ⟨by decide, rfl⟩, ?_, rfl⟩, rfl⟩
      exact ⟨flags, _, _, ⟨True.intro, rfl⟩,
        ⟨head.2, _, [], ⟨small, rfl⟩, ⟨Prod.ext one rfl, rfl⟩, (append_nil _).symm⟩, rfl⟩
    · intro chain
      obtain ⟨magic, _, _, ⟨_, rfl⟩, ⟨_, _, _, ⟨isMagic, rfl⟩, ⟨version, _, _, ⟨_, rfl⟩, ⟨_, _, _, ⟨isOne, rfl⟩,
        ⟨flags, _, _, ⟨_, rfl⟩, ⟨count, _, _, ⟨small, rfl⟩, ⟨rfl, rfl⟩, rfl⟩, rfl⟩, rfl⟩, rfl⟩, rfl⟩, same⟩ := chain
      split at isMagic
      case isTrue magical =>
        split at isOne
        case isTrue => cases isOne
        case isFalse supported =>
          have one := version_eq_one.mp supported
          refine ⟨one, small, flags, ?_⟩
          rw [same, magical, one, append_nil]
          rfl
      case isFalse => cases isMagic
  · intro before size
    simp

/-- The tensors fit their widths and are behind a header and a metadata text that parses. -/
theorem describes_readFrom : Describes
    (fileReader Checkpoint.readHeader Checkpoint.readText deserializeMetadata Checkpoint.readTensor
      Checkpoint.minTensorBytes) (fun file part => ∃ headPart metaStr,
      FileParts HeaderParts deserializeMetadata CheckpointTensor.Fits CheckpointTensor.bytes file part headPart metaStr)
    (FileNeeds HeaderParts deserializeMetadata CheckpointTensor.Fits CheckpointTensor.bytes TensorNeeds
      Checkpoint.minTensorBytes) := by
  apply describes_file describes_readHeader describes_readTensor
  intro tensor _
  simp only [bytes, textBytes, shapeBytes, dataBytes, length_append, length_leBytes]
  change 16 ≤ _
  omega

end Pictor.Storage

namespace Pictor.Storage
open LittleEndian Reading List

/-- The places of an entry where room is reserved: behind the lengths of its name, its type and its data. -/
inductive EntryNeeds : List UInt8 → Nat → Prop
  | name {len : Nat} : len < 2 ^ 32 → EntryNeeds (leBytes 4 len) len
  | quantType {name : List Char} {len : Nat} : Utf8.size name < 2 ^ 32 → len < 2 ^ 32 →
      EntryNeeds (textBytes name ++ leBytes 4 len) len
  | data {name quantType : List Char} {len : Nat} : Utf8.size name < 2 ^ 32 → Utf8.size quantType < 2 ^ 32 →
      len < 2 ^ 64 → EntryNeeds (textBytes name ++ (textBytes quantType ++ leBytes 8 len)) len

namespace CacheEntry

/-- The data behind their length. -/
def blobBytes (data : List UInt8) : List UInt8 := leBytes 8 data.length ++ data

def bytes (entry : CacheEntry) : List UInt8 :=
  textBytes entry.name ++ (textBytes entry.quantType ++ blobBytes entry.data)

/-- The lengths of an entry fit their widths. -/
structure Fits (entry : CacheEntry) : Prop where
  name : Utf8.size entry.name < 2 ^ 32
  quantType : Utf8.size entry.quantType < 2 ^ 32
  data : entry.data.length < 2 ^ 64

end CacheEntry

open CacheEntry

theorem describes_readEntry : Describes DiskCache.readEntry
    (fun entry part => entry.Fits ∧ part = entry.bytes) EntryNeeds := by
  have blobs := (describes_len64 DiskCache.short).counted fun len =>
    (describes_vec DiskCache.short len).congr (fun _ _ => Iff.rfl)
      (fun before needed => (show before = [] ∧ needed = len * 1 ↔ _ by rw [Nat.mul_one]))
  apply ((describes_text DiskCache.short .notUtf8).bind fun name _ _ =>
    (describes_text DiskCache.short .notUtf8).bind fun quantType _ _ => blobs.bind fun data _ _ =>
      describes_pure (⟨name, data, quantType⟩ : CacheEntry)).congr
  · intro entry part
    constructor
    · intro ⟨⟨name, quantType, data⟩, same⟩
      refine ⟨entry.name, _, _, ⟨name, rfl⟩, ⟨entry.quantType, _, _, ⟨quantType, rfl⟩, ?_, rfl⟩, same⟩
      exact ⟨entry.data, _, [], ⟨data, rfl⟩, ⟨rfl, rfl⟩, (append_nil _).symm⟩
    · intro chain
      obtain ⟨name, _, _, ⟨nameFits, rfl⟩, ⟨quantType, _, _, ⟨quantFits, rfl⟩,
        ⟨data, _, _, ⟨dataFits, rfl⟩, ⟨rfl, rfl⟩, rfl⟩, rfl⟩, same⟩ := chain
      rw [append_nil] at same
      exact ⟨⟨nameFits, quantFits, dataFits⟩, same⟩
  · intro before size
    constructor
    · intro needed
      cases needed with
      | name small => exact .inl ⟨_, small, rfl, (Nat.mul_one _).symm⟩
      | quantType nameFits small =>
          exact .inr ⟨_, _, _, ⟨nameFits, rfl⟩, .inl ⟨_, small, rfl, (Nat.mul_one _).symm⟩, rfl⟩
      | data nameFits quantFits small =>
          refine .inr ⟨_, _, _, ⟨nameFits, rfl⟩, .inr ⟨_, _, _, ⟨quantFits, rfl⟩, .inl ?_, rfl⟩, rfl⟩
          exact ⟨_, small, rfl, (Nat.mul_one _).symm⟩
    · intro chain
      rcases chain with ⟨len, small, rfl, rfl⟩ | ⟨name, _, _, ⟨nameFits, rfl⟩, later, rfl⟩
      · rw [Nat.mul_one]
        exact .name small
      rcases later with ⟨len, small, rfl, rfl⟩ | ⟨quantType, _, _, ⟨quantFits, rfl⟩, later, rfl⟩
      · rw [Nat.mul_one]
        exact .quantType nameFits small
      rcases later with ⟨len, small, rfl, rfl⟩ | ⟨_, _, _, _, impossible, _⟩
      · rw [Nat.mul_one]
        exact .data nameFits quantFits small
      · exact impossible.elim

/-- The first bytes of a cache file. -/
def cacheHeaderBytes (count : Nat) : List UInt8 := cacheMagic ++ (leBytes 4 cacheVersion.toNat ++ leBytes 8 count)

def CacheHeaderParts (head : UInt32 × Nat) (part : List UInt8) : Prop :=
  head.1 = cacheVersion ∧ head.2 < 2 ^ 64 ∧ part = cacheHeaderBytes head.2

theorem describes_readCacheHeader : Describes DiskCache.readHeader CacheHeaderParts fun _ _ => False := by
  apply ((describes_readExact (DiskCache.short 4) 4).bind fun magic _ _ => (describes_require _).bind
    fun _ _ _ => (describes_u32 DiskCache.short).bind fun version _ _ => (describes_require _).bind
    fun _ _ _ => (describes_len64 DiskCache.short).bind fun count _ _ => describes_pure (version, count)).congr
  · intro head part
    constructor
    · intro ⟨current, small, same⟩
      refine ⟨cacheMagic, _, _, ⟨rfl, rfl⟩, ⟨(), [], _, ⟨if_pos rfl, rfl⟩, ?_, rfl⟩, same⟩
      refine ⟨cacheVersion, _, _, ⟨True.intro, rfl⟩, ⟨(), [], _, ⟨if_pos rfl, rfl⟩, ?_, rfl⟩, rfl⟩
      exact ⟨head.2, _, [], ⟨small, rfl⟩, ⟨Prod.ext current rfl, rfl⟩, (append_nil _).symm⟩
    · intro chain
      obtain ⟨magic, _, _, ⟨_, rfl⟩, ⟨_, _, _, ⟨isMagic, rfl⟩, ⟨version, _, _, ⟨_, rfl⟩, ⟨_, _, _, ⟨isCurrent, rfl⟩,
        ⟨count, _, _, ⟨small, rfl⟩, ⟨rfl, rfl⟩, rfl⟩, rfl⟩, rfl⟩, rfl⟩, same⟩ := chain
      split at isMagic
      case isTrue magical =>
        split at isCurrent
        case isTrue current =>
          refine ⟨current, small, ?_⟩
          rw [same, magical, current, append_nil]
          rfl
        case isFalse => cases isCurrent
      case isFalse => cases isMagic
  · intro before size
    simp

/-- The entries fit their widths and are behind a header and a metadata text that parses. -/
theorem describes_readCache : Describes
    (fileReader DiskCache.readHeader DiskCache.readText metadataFromJson DiskCache.readEntry DiskCache.minEntryBytes)
    (fun file part => ∃ headPart metaStr,
      FileParts CacheHeaderParts metadataFromJson CacheEntry.Fits CacheEntry.bytes file part headPart metaStr)
    (FileNeeds CacheHeaderParts metadataFromJson CacheEntry.Fits CacheEntry.bytes EntryNeeds
      DiskCache.minEntryBytes) := by
  apply describes_file describes_readCacheHeader describes_readEntry
  intro entry _
  simp only [bytes, textBytes, blobBytes, length_append, length_leBytes]
  change 16 ≤ _
  omega

end Pictor.Storage

namespace Pictor.Storage
open Appending InsertAll LittleEndian Reading List

/-- The maps have the same values. -/
def SameMetadata (first second : Metadata) : Prop := ∀ key, first.lookup key = second.lookup key

theorem sameMetadata_sorted (metadata : Metadata) : SameMetadata (insertAll (sortedPairs metadata) ∅) metadata :=
  lookup_insertAll_permuted (sortedPairs_perm metadata)

namespace Checkpoint

/-- A checkpoint whose lengths fit their widths, with names that the writer accepts. -/
structure Storable (checkpoint : Checkpoint) : Prop where
  version : checkpoint.version = 1
  metadata : Utf8.size (serializeMetadata checkpoint.metadata) < 2 ^ 32
  count : checkpoint.tensors.length < 2 ^ 64
  names : ∀ tensor ∈ checkpoint.tensors, Utf8.size tensor.name ≤ 65535
  shapes : ∀ tensor ∈ checkpoint.tensors, tensor.shape.length < 2 ^ 32
  data : ∀ tensor ∈ checkpoint.tensors, tensor.data.length < 2 ^ 64

variable {checkpoint : Checkpoint}

theorem writes_tensor {tensor : CheckpointTensor} (short : Utf8.size tensor.name ≤ 65535) :
    Writes tensor.writeTo () tensor.bytes := by
  have shape : Writes (tensor.shape.forM fun dim => writeAll (leBytes 8 dim.toNat) : Append CheckpointError UInt8 Unit)
      () (tensor.shape.flatMap fun dim => leBytes 8 dim.toNat) := writes_forM _ fun _ _ => writes_writeAll _
  have data : Writes (tensor.data.forM fun bits => writeAll (leBytes 4 bits.toNat) : Append CheckpointError UInt8 Unit)
      () (tensor.data.flatMap fun bits => leBytes 4 bits.toNat) := writes_forM _ fun _ _ => writes_writeAll _
  rw [CheckpointTensor.writeTo, if_neg (fun long : (Utf8.encode tensor.name).length > 65535 => Nat.not_le.mpr long short)]
  simp only [CheckpointTensor.bytes, CheckpointTensor.shapeBytes, CheckpointTensor.dataBytes, textBytes,
    append_assoc]
  exact (writes_writeAll _).bind ((writes_writeAll _).bind ((writes_writeAll _).bind
    (shape.bind ((writes_writeAll _).bind data))))

/-- A checkpoint is written behind the header without flags and its metadata text. -/
theorem writes_checkpoint (storable : checkpoint.Storable) :
    Writes checkpoint.writeTo () (headerBytes 0 checkpoint.tensors.length ++
      (textBytes (serializeMetadata checkpoint.metadata) ++ checkpoint.tensors.flatMap CheckpointTensor.bytes)) := by
  have tensors := writes_forM checkpoint.tensors fun tensor member => writes_tensor (storable.names tensor member)
  simp only [headerBytes, textBytes, append_assoc]
  exact (writes_writeAll _).bind ((writes_writeAll _).bind ((writes_writeAll _).bind ((writes_writeAll _).bind
    ((writes_writeAll _).bind ((writes_writeAll _).bind tensors)))))

theorem readFrom_eq (bytes : List UInt8) : readFrom bytes =
    (fileReader readHeader readText deserializeMetadata readTensor minTensorBytes bytes).map fun read =>
      (⟨read.1.1, read.1.2.1, read.1.2.2⟩, read.2) := by
  have mapped : readFrom = (fun file => (⟨file.1, file.2.1, file.2.2⟩ : Checkpoint)) <$>
      fileReader readHeader readText deserializeMetadata readTensor minTensorBytes := by
    simp only [readFrom, fileReader, map_bind, map_pure]
  rw [mapped]
  rfl

/-- What was written is read back to its last byte. -/
structure RoundTrips (checkpoint : Checkpoint) (bytes : List UInt8) (read : Checkpoint) : Prop where
  wrote : checkpoint.writeTo [] = .ok ((), bytes)
  reads : readFrom bytes = .ok (read, [])
  version : read.version = checkpoint.version
  metadata : SameMetadata read.metadata checkpoint.metadata
  tensors : read.tensors = checkpoint.tensors

theorem roundTrips (storable : checkpoint.Storable) : ∃ bytes read, RoundTrips checkpoint bytes read := by
  have wrote := writes_checkpoint storable []
  have parsed : deserializeMetadata (serializeMetadata checkpoint.metadata) =
      .ok (insertAll (sortedPairs checkpoint.metadata) ∅) := by
    rw [deserializeMetadata, serializeMetadata, parseObject_objectText pushEscaped_undone]
    rfl
  have fits : ∀ tensor ∈ checkpoint.tensors, tensor.Fits := fun tensor member =>
    ⟨Nat.lt_of_le_of_lt (storable.names tensor member) (by decide), storable.shapes tensor member,
      storable.data tensor member⟩
  have read := (describes_readFrom.reads _ (1, insertAll (sortedPairs checkpoint.metadata) ∅, checkpoint.tensors) []).mpr
    ⟨_, ⟨_, _, ⟨rfl, storable.count, 0, rfl⟩, storable.metadata, parsed, fits, rfl⟩, (append_nil _).symm⟩
  refine ⟨_, ⟨1, insertAll (sortedPairs checkpoint.metadata) ∅, checkpoint.tensors⟩, wrote, ?_, storable.version.symm,
    sameMetadata_sorted checkpoint.metadata, rfl⟩
  rw [nil_append, readFrom_eq, read]
  rfl

/-- The bytes of the contents, and those of the lengths of each tensor. -/
def size (checkpoint : Checkpoint) : Nat :=
  checkpoint.metadata.size + (checkpoint.tensors.map fun tensor =>
    16 + Utf8.size tensor.name + 8 * tensor.shape.length + 4 * tensor.data.length).sum

/-- The places of a checkpoint where room is reserved. -/
def Needs : List UInt8 → Nat → Prop :=
  FileNeeds HeaderParts deserializeMetadata CheckpointTensor.Fits CheckpointTensor.bytes TensorNeeds minTensorBytes

theorem aborts_iff (bytes : List UInt8) : readFrom bytes = .error .aborted ↔
    ∃ before size rest, Needs before size ∧ bytes = before ++ rest ∧ rest.length < size := by
  have aborts := describes_readFrom.aborts bytes
  change _ ↔ ∃ before size rest, Needs before size ∧ _ at aborts
  rw [readFrom_eq, ← aborts]
  cases fileReader readHeader readText deserializeMetadata readTensor minTensorBytes bytes with
  | error stop => simp [Except.map]
  | ok read => simp [Except.map]

theorem length_bytes (tensor : CheckpointTensor) : tensor.bytes.length =
    16 + Utf8.size tensor.name + 8 * tensor.shape.length + 4 * tensor.data.length := by
  simp only [CheckpointTensor.bytes, CheckpointTensor.shapeBytes, CheckpointTensor.dataBytes, textBytes,
    length_append, length_leBytes, length_flatMap, map_const', sum_replicate_nat, Utf8.size]
  omega

theorem size_le {bytes rest : List UInt8} (read : readFrom bytes = .ok (checkpoint, rest)) :
    checkpoint.size ≤ bytes.length := by
  rw [readFrom_eq] at read
  cases stage : fileReader readHeader readText deserializeMetadata readTensor minTensorBytes bytes with
  | error failure =>
      rw [stage] at read
      cases read
  | ok result =>
      rw [stage] at read
      cases read
      obtain ⟨part, ⟨headPart, metaStr, parts⟩, rfl⟩ := (describes_readFrom.reads bytes result.1 result.2).mp stage
      have inside := parts.size_le fun text metadata => size_mapError
      simp only [length_bytes] at inside
      rw [length_append]
      exact Nat.le_add_right_of_le inside

end Checkpoint

namespace DiskCache

/-- A cache whose lengths fit their widths. -/
structure Storable (cache : DiskCache) : Prop where
  metadata : Utf8.size (metadataToJson cache.metadata) < 2 ^ 32
  count : cache.entries.length < 2 ^ 64
  entries : ∀ entry ∈ cache.entries, entry.Fits

variable {cache : DiskCache}

theorem writes_entry (entry : CacheEntry) : Writes entry.writeTo () entry.bytes := by
  simp only [CacheEntry.bytes, CacheEntry.blobBytes, textBytes, append_assoc]
  exact (writes_writeAll _).bind ((writes_writeAll _).bind ((writes_writeAll _).bind ((writes_writeAll _).bind
    ((writes_writeAll _).bind (writes_writeAll _)))))

/-- A cache is written behind its header and its metadata text. -/
theorem writes_cache (cache : DiskCache) : Writes cache.writeTo () (cacheHeaderBytes cache.entries.length ++
      (textBytes (metadataToJson cache.metadata) ++ cache.entries.flatMap CacheEntry.bytes)) := by
  have entries := writes_forM cache.entries fun entry _ => writes_entry entry
  simp only [cacheHeaderBytes, textBytes, append_assoc]
  exact (writes_writeAll _).bind ((writes_writeAll _).bind ((writes_writeAll _).bind ((writes_writeAll _).bind
    ((writes_writeAll _).bind entries))))

theorem readFrom_eq (bytes : List UInt8) : readFrom bytes =
    (fileReader readHeader readText metadataFromJson readEntry minEntryBytes bytes).map fun read =>
      (⟨read.1.2.2, read.1.2.1⟩, read.2) := by
  have mapped : readFrom = (fun file => (⟨file.2.2, file.2.1⟩ : DiskCache)) <$>
      fileReader readHeader readText metadataFromJson readEntry minEntryBytes := by
    simp only [readFrom, fileReader, map_bind, map_pure]
  rw [mapped]
  rfl

/-- What was written is read back to its last byte. -/
structure RoundTrips (cache : DiskCache) (bytes : List UInt8) (read : DiskCache) : Prop where
  wrote : cache.writeTo [] = .ok ((), bytes)
  reads : readFrom bytes = .ok (read, [])
  metadata : SameMetadata read.metadata cache.metadata
  entries : read.entries = cache.entries

theorem roundTrips (storable : cache.Storable) : ∃ bytes read, RoundTrips cache bytes read := by
  have wrote := writes_cache cache []
  have parsed : metadataFromJson (metadataToJson cache.metadata) =
      .ok (insertAll (sortedPairs cache.metadata) ∅) := by
    rw [metadataFromJson, metadataToJson, parseObject_objectText jsonEscapeInto_undone]
    rfl
  have read := (describes_readCache.reads _ (cacheVersion, insertAll (sortedPairs cache.metadata) ∅, cache.entries)
    []).mpr ⟨_, ⟨_, _, ⟨rfl, storable.count, rfl⟩, storable.metadata, parsed, storable.entries, rfl⟩,
      (append_nil _).symm⟩
  refine ⟨_, ⟨cache.entries, insertAll (sortedPairs cache.metadata) ∅⟩, wrote, ?_, sameMetadata_sorted cache.metadata, rfl⟩
  rw [nil_append, readFrom_eq, read]
  rfl

/-- The bytes of the contents, and those of the lengths of each entry. -/
def size (cache : DiskCache) : Nat :=
  cache.metadata.size + (cache.entries.map fun entry =>
    16 + Utf8.size entry.name + Utf8.size entry.quantType + entry.data.length).sum

/-- The places of a cache file where room is reserved. -/
def Needs : List UInt8 → Nat → Prop :=
  FileNeeds CacheHeaderParts metadataFromJson CacheEntry.Fits CacheEntry.bytes EntryNeeds minEntryBytes

theorem aborts_iff (bytes : List UInt8) : readFrom bytes = .error .aborted ↔
    ∃ before size rest, Needs before size ∧ bytes = before ++ rest ∧ rest.length < size := by
  have aborts := describes_readCache.aborts bytes
  change _ ↔ ∃ before size rest, Needs before size ∧ _ at aborts
  rw [readFrom_eq, ← aborts]
  cases fileReader readHeader readText metadataFromJson readEntry minEntryBytes bytes with
  | error stop => simp [Except.map]
  | ok read => simp [Except.map]

theorem length_bytes (entry : CacheEntry) : entry.bytes.length =
    16 + Utf8.size entry.name + Utf8.size entry.quantType + entry.data.length := by
  simp only [CacheEntry.bytes, CacheEntry.blobBytes, textBytes, length_append, length_leBytes, Utf8.size]
  omega

theorem size_le {bytes rest : List UInt8} (read : readFrom bytes = .ok (cache, rest)) :
    cache.size ≤ bytes.length := by
  rw [readFrom_eq] at read
  cases stage : fileReader readHeader readText metadataFromJson readEntry minEntryBytes bytes with
  | error failure =>
      rw [stage] at read
      cases read
  | ok result =>
      rw [stage] at read
      cases read
      obtain ⟨part, ⟨headPart, metaStr, parts⟩, rfl⟩ := (describes_readCache.reads bytes result.1 result.2).mp stage
      have inside := parts.size_le fun text metadata => size_mapError
      simp only [length_bytes] at inside
      rw [length_append]
      exact Nat.le_add_right_of_le inside

end DiskCache

/-- A checkpoint and a cache that fit the widths of their lengths are written and read back. -/
theorem files_roundTrip {checkpoint : Checkpoint} {cache : DiskCache} (storable : checkpoint.Storable)
    (storable' : cache.Storable) :
    (∃ bytes read, checkpoint.RoundTrips bytes read) ∧ ∃ bytes read, cache.RoundTrips bytes read :=
  ⟨Checkpoint.roundTrips storable, DiskCache.roundTrips storable'⟩

def quotedMetadata : Metadata := AList.singleton ['"', '}', '\n'] ['\\', ',', '{']

theorem quoted_sorted : sortedPairs quotedMetadata = [(['"', '}', '\n'], ['\\', ',', '{'])] := mergeSort_singleton _

def quotedCheckpoint : Checkpoint := ⟨1, quotedMetadata, [⟨['w'], [2], [1, 2]⟩]⟩

def quotedCache : DiskCache := ⟨[⟨['w'], [1, 2], ['q']⟩], quotedMetadata⟩

/-- Quotes, braces, commas and line breaks survive. -/
theorem quoted_roundTrip : (∃ bytes read, quotedCheckpoint.RoundTrips bytes read) ∧
    ∃ bytes read, quotedCache.RoundTrips bytes read := by
  have text : Utf8.size (serializeMetadata quotedMetadata) < 2 ^ 32 := by
    rw [serializeMetadata, objectText, quoted_sorted]
    decide
  have text' : Utf8.size (metadataToJson quotedMetadata) < 2 ^ 32 := by
    rw [metadataToJson, objectText, quoted_sorted]
    decide
  apply files_roundTrip
  · constructor
    · rfl
    · exact text
    · decide
    · decide
    · decide
    · decide
  · constructor
    · exact text'
    · decide
    · intro entry member
      rw [mem_singleton.mp member]
      exact ⟨by decide, by decide, by decide⟩

/-- Both readers return a value or an error for the bytes, and a value is no larger than the bytes. -/
structure LoadsSafely (bytes : List UInt8) : Prop where
  checkpoint : Checkpoint.readFrom bytes ≠ .error .aborted
  checkpointSize : ∀ read rest, Checkpoint.readFrom bytes = .ok (read, rest) → read.size ≤ bytes.length
  cache : DiskCache.readFrom bytes ≠ .error .aborted
  cacheSize : ∀ read rest, DiskCache.readFrom bytes = .ok (read, rest) → read.size ≤ bytes.length

/-- Behind every length that a reader reaches, there are enough bytes. -/
def LengthsFit (bytes : List UInt8) : Prop :=
  ∀ before size rest, Checkpoint.Needs before size ∨ DiskCache.Needs before size → bytes = before ++ rest →
    size ≤ rest.length

theorem loadsSafely_iff (bytes : List UInt8) : LoadsSafely bytes ↔ LengthsFit bytes := by
  constructor
  · intro safe before size rest needed same
    by_contra short
    rcases needed with needed | needed
    · exact safe.checkpoint ((Checkpoint.aborts_iff bytes).mpr ⟨before, size, rest, needed, same, Nat.not_le.mp short⟩)
    · exact safe.cache ((DiskCache.aborts_iff bytes).mpr ⟨before, size, rest, needed, same, Nat.not_le.mp short⟩)
  · intro fit
    refine ⟨fun aborted => ?_, fun _ _ => Checkpoint.size_le, fun aborted => ?_, fun _ _ => DiskCache.size_le⟩
    · obtain ⟨before, size, rest, needed, same, short⟩ := (Checkpoint.aborts_iff bytes).mp aborted
      exact Nat.not_le.mpr short (fit before size rest (.inl needed) same)
    · obtain ⟨before, size, rest, needed, same, short⟩ := (DiskCache.aborts_iff bytes).mp aborted
      exact Nat.not_le.mpr short (fit before size rest (.inr needed) same)

/-- A header that promises more tensors than a file can hold. -/
def endlessTensors : List UInt8 := headerBytes 0 (2 ^ 64 - 1) ++ textBytes []

theorem endlessTensors_aborts : ¬LoadsSafely endlessTensors := by
  intro safe
  apply safe.checkpoint
  have header : HeaderParts (1, 2 ^ 64 - 1) (headerBytes 0 (2 ^ 64 - 1)) := ⟨rfl, by decide, 0, rfl⟩
  have needed : Checkpoint.Needs endlessTensors ((2 ^ 64 - 1) * Checkpoint.minTensorBytes) :=
    .items header (by decide) (show deserializeMetadata [] = .ok ∅ from rfl)
  exact (Checkpoint.aborts_iff _).mpr ⟨_, _, [], needed, (append_nil _).symm, by decide⟩

end Pictor.Storage
