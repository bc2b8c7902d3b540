import Pictor.Proof.Gguf.ReaderSafe
import Pictor.Proof.Gguf.WriterFormat

namespace Pictor.Gguf
open Appending BuildArith LittleEndian Outcome List

/-- The number of bytes up to the next multiple of an alignment. -/
def padding (pos alignment : Nat) : Nat :=
  if alignment = 0 ∨ pos % alignment = 0 then 0 else alignment - pos % alignment

/-- The tensors stand one after another from a start on. -/
def placed (start : Nat) : List TensorEntry → List TensorInfo
  | [] => []
  | entry :: tensors => entry.info (UInt64.ofNat start) :: placed (start + entry.data.length) tensors

namespace GgufWriter

/-- The written entries, with the entry of the alignment. -/
def entries (writer : GgufWriter) : List (List Char × MetadataWriteValue) :=
  writer.alignmentEntry.toList ++ writer.metadata

/-- The number of bytes before the padding. -/
def headSize (writer : GgufWriter) : Nat :=
  24 + (writer.entries.map entrySize).sum + (writer.tensors.map TensorEntry.infoSize).sum

/-- The header, the entries, and the tensor infos. -/
def headBytes (writer : GgufWriter) (metadata infos : List UInt8) : List UInt8 :=
  leBytes 4 ggufMagic.toNat ++ leBytes 4 (3 : UInt32).toNat ++ leBytes 8 (UInt64.ofNat writer.tensors.length).toNat ++
    leBytes 8 (UInt64.ofNat writer.entries.length).toNat ++ metadata ++ infos

def tensorBytes (writer : GgufWriter) : List UInt8 := writer.tensors.flatMap TensorEntry.data

/-- What the written file says before its tensor data. -/
def layout (writer : GgufWriter) : Layout :=
  ⟨3, writer.entries.map fun entry => (entry.1, entry.2.read), placed 0 writer.tensors⟩

/-- The keys and the names are distinct, and the entries and the tensors keep the limits of the reader. -/
structure Limited (writer : GgufWriter) : Prop where
  keys : (writer.metadata.map Prod.fst).Nodup
  names : (writer.tensors.map TensorEntry.name).Nodup
  alignment : writer.alignment < 2 ^ 32
  entries : ∀ entry ∈ writer.metadata, Short entry.1 ∧ entry.2.Limited
  tensors : ∀ entry ∈ writer.tensors, Short entry.name ∧ entry.shape.length ≤ maxTensorDims

end GgufWriter

open GgufWriter

variable {build : Build} {writer : GgufWriter} {tensors : List TensorEntry}

theorem padToAlignment_writes (pos alignment : Nat) :
    Writes (padToAlignment pos alignment) (padding pos alignment) (List.replicate (padding pos alignment) 0) := by
  rw [padToAlignment, padding]
  by_cases zero : alignment = 0
  · rw [if_pos zero, if_pos (Or.inl zero)]
    exact writes_pure 0
  · rw [if_neg zero]
    by_cases whole : pos % alignment = 0
    · rw [if_pos (Or.inr whole)]
      dsimp only
      rw [if_pos whole]
      exact writes_pure 0
    · rw [if_neg (not_or.mpr ⟨zero, whole⟩)]
      dsimp only
      rw [if_neg whole]
      exact writes_then (writes_writeAll _) _

theorem map_placed {Field : Type} {field : TensorEntry → Field} {read : TensorInfo → Field}
    (same : ∀ entry offset, read (entry.info offset) = field entry) (start : Nat) :
    (placed start tensors).map read = tensors.map field := by
  induction tensors generalizing start with
  | nil => rfl
  | cons entry tensors ih => rw [placed, map_cons, map_cons, ih, same]

theorem length_placed (start : Nat) : (placed start tensors).length = tensors.length := by
  induction tensors generalizing start with
  | nil => rfl
  | cons entry tensors ih => rw [placed, length_cons, ih, length_cons]

/-- One offset is taken for each tensor. Without an overflow the offsets are those of the placed tensors. -/
theorem dataOffsets_ok {offsets result : List UInt64} {running last : UInt64}
    (ran : tensors.foldlM (fun (dataOffsets, runningOffset) entry => do
      let expected ← TensorEntry.expected build entry
      let next ← build.add .panic runningOffset expected
      return (dataOffsets ++ [runningOffset], next)) (offsets, running) = .ok (result, last)) :
    ∃ added, result = offsets ++ added ∧ added.length = tensors.length ∧ ((∀ entry ∈ tensors, entry.Sized build) →
        running.toNat + (tensors.flatMap TensorEntry.data).length < 2 ^ 64 →
        (tensors.zip added).map (fun placed => placed.1.info placed.2) = placed running.toNat tensors) := by
  induction tensors generalizing offsets running with
  | nil =>
      cases ran
      exact ⟨[], (append_nil _).symm, rfl, fun _ _ => rfl⟩
  | cons entry tensors ih =>
      rw [foldlM_cons] at ran
      obtain ⟨⟨offsets', next⟩, first, later⟩ := bind_ok ran
      obtain ⟨expected, sized, added⟩ := bind_ok first
      obtain ⟨sum, summed, done⟩ := bind_ok added
      cases done
      obtain ⟨added, rfl, full, exactly⟩ := ih later
      refine ⟨running :: added, by rw [append_assoc]; rfl, by rw [length_cons, full]; rfl, ?_⟩
      intro all small
      obtain ⟨⟨size, sized', same⟩, others⟩ := forall_mem_cons.mp all
      rw [sized] at sized'
      cases sized'
      rw [flatMap_cons, length_append, same] at small
      have fits : running.toNat + expected.toNat < 2 ^ 64 := by omega
      obtain ⟨added', sum'⟩ : build.add WriteFailure.panic running expected = .ok _ ∧ _ := Build.add_fits fits
      rw [added'] at summed
      cases summed
      rw [zip_cons_cons, map_cons, placed, UInt64.ofNat_toNat, same, ← sum']
      rw [exactly others (by rw [sum']; omega)]

theorem entries_limited : (∀ entry ∈ writer.entries, EntryLimited entry) ↔
    ∀ entry ∈ writer.metadata, EntryLimited entry := by
  have injected (entry : List Char × MetadataWriteValue) (member : entry ∈ writer.alignmentEntry) :
      EntryLimited entry := by
    rw [Option.mem_def, alignmentEntry] at member
    split at member
    case isTrue =>
      cases member
      have short : (Utf8.encode alignmentKey).length ≤ maxStringLen := by decide
      exact ⟨short, trivial⟩
    case isFalse => cases member
  simp only [entries, forall_mem_append, Option.mem_toList]
  exact and_iff_right injected

theorem tensorBytes_writes (tensors : List TensorEntry) (pos : Nat) :
    ∃ last, Writes (tensors.foldlM (fun pos entry => do
      writeAll entry.data
      return pos + entry.data.length) pos : Writing Nat) last (tensors.flatMap TensorEntry.data) := by
  obtain ⟨pieces, paired, _, wrote⟩ := @writes_foldlM WriteFailure _ _
    (fun pos entry => do
      writeAll entry.data
      return pos + entry.data.length) (fun entry : TensorEntry => entry.data.length)
    (fun entry piece => piece = entry.data) tensors
    (fun pos entry _ => ⟨_, rfl, rfl, writes_then (writes_writeAll entry.data) fun _ => pos + entry.data.length⟩) pos
  rw [encodesAll_exact.mp ⟨pieces, paired, rfl⟩] at wrote
  exact ⟨_, wrote⟩

theorem entries_writes (entries : List (List Char × MetadataWriteValue)) (pos : Nat) :
    ∃ metadata, Renders (fun read used => read.length = entries.length ∧ EncodesAll EncodesEntry read used)
        (entries.map fun entry => (entry.1, entry.2.read)) (∀ entry ∈ entries, EntryLimited entry) metadata ∧
      metadata.length = (entries.map entrySize).sum ∧
      Writes (entries.foldlM writeEntry pos) (pos + (entries.map entrySize).sum) metadata := by
  obtain ⟨pieces, paired, full, wrote⟩ := writes_foldlM entries (fun pos entry _ => writeEntry_writes entry pos) pos
  exact ⟨pieces.flatten, Renders.all paired, full, wrote⟩

variable {offsets : List UInt64} {bytes : List UInt8}

theorem tensorInfos_sized (count : offsets.length = tensors.length) {pos : Nat} {out : List UInt8}
    {last : Nat × List UInt8}
    (listed : ((tensors.zip offsets).foldlM (fun pos (entry, offset) => writeTensorInfo build pos entry offset) pos : Writing Nat) out = .ok last) :
    ∀ entry ∈ tensors, entry.Sized build := by
  have checked := foldlM_passes (fun _ _ _ _ wrote => writeTensorInfo_sized wrote) listed
  intro entry member
  rw [← map_fst_zip (le_of_eq count.symm), mem_map] at member
  obtain ⟨pair, member, rfl⟩ := member
  exact checked pair member

/-- The loop over the tensors passes when all data have their sizes. -/
theorem tensorInfos_writes (count : offsets.length = tensors.length) (sized : ∀ entry ∈ tensors, entry.Sized build)
    (flat : ∀ entry ∈ tensors, entry.shape.length < 2 ^ 32) (pos : Nat) :
    ∃ infos, Renders (fun read used => read.length = tensors.length ∧ EncodesAll EncodesTensor read used)
        ((tensors.zip offsets).map fun placed => placed.1.info placed.2) (∀ entry ∈ tensors, entry.Limited) infos ∧
      infos.length = (tensors.map TensorEntry.infoSize).sum ∧
      Writes ((tensors.zip offsets).foldlM (fun pos (entry, offset) =>
        writeTensorInfo build pos entry offset) pos : Writing Nat) (pos + (tensors.map TensorEntry.infoSize).sum)
        infos := by
  have whole := map_fst_zip (le_of_eq count.symm)
  obtain ⟨pieces, paired, full, wrote⟩ := @writes_foldlM WriteFailure _ _
    (fun pos (pair : TensorEntry × UInt64) => writeTensorInfo build pos pair.1 pair.2) (fun pair => pair.1.infoSize)
    (fun pair => Renders EncodesTensor (pair.1.info pair.2) pair.1.Limited) (tensors.zip offsets)
    (fun pos pair member =>
      have inside := (of_mem_zip member).1
      writeTensorInfo_writes (sized pair.1 inside) (flat pair.1 inside) pair.2 pos) pos
  have sizes := congrArg (List.map TensorEntry.infoSize) whole
  rw [map_map] at sizes
  change (tensors.zip offsets).map (fun pair => pair.1.infoSize) = _ at sizes
  have limits : (∀ pair ∈ tensors.zip offsets, pair.1.Limited) ↔ ∀ entry ∈ tensors, entry.Limited := by
    rw [← whole, forall_mem_map, whole]
  have rendered := Renders.all paired
  rw [limits, length_zip, count, Nat.min_self] at rendered
  rw [sizes] at full wrote
  exact ⟨pieces.flatten, rendered, full, wrote⟩

/-- The layout is rendered by its entries and its tensors. -/
theorem renders_layout {metadata infos : List UInt8}
    (entries : Renders (fun read used => read.length = writer.entries.length ∧ EncodesAll EncodesEntry read used)
      writer.layout.metadata (∀ entry ∈ writer.entries, EntryLimited entry) metadata)
    (tensors : Renders (fun read used => read.length = writer.tensors.length ∧ EncodesAll EncodesTensor read used)
      writer.layout.tensors (∀ entry ∈ writer.tensors, entry.Limited) infos)
    (fewEntries : writer.entries.length < 2 ^ 64) (fewTensors : writer.tensors.length < 2 ^ 64) :
    Renders EncodesLayout writer.layout
      ((∀ entry ∈ writer.metadata, EntryLimited entry) ∧ ∀ entry ∈ writer.tensors, entry.Limited)
      (writer.headBytes metadata infos) := by
  have entriesFit : (UInt64.ofNat writer.entries.length).toNat = writer.entries.length :=
    UInt64.toNat_ofNat_of_lt' fewEntries
  have tensorsFit : (UInt64.ofNat writer.tensors.length).toNat = writer.tensors.length :=
    UInt64.toNat_ofNat_of_lt' fewTensors
  have header : EncodesHeader ⟨3, UInt64.ofNat writer.tensors.length, UInt64.ofNat writer.entries.length⟩ _ :=
    ⟨Or.inr rfl, rfl⟩
  rw [← entries_limited]
  constructor
  · rintro ⟨first, second⟩
    obtain ⟨count, listed⟩ := entries.encoded first
    obtain ⟨count', listed'⟩ := tensors.encoded second
    exact ⟨_, _, metadata, infos, header, rfl, entriesFit.trans count.symm, tensorsFit.trans count'.symm, listed,
      listed', rfl⟩
  · rintro small layout _ rest rest' ⟨header', start', metadata', infos', first, _, count, count', second, third, rfl⟩
      same
    simp only [headBytes, length_append, length_leBytes] at small
    have read := header_ok.mpr ⟨_, metadata ++ (infos ++ rest), header, rfl, rfl⟩
    have read' := header_ok.mpr ⟨start', metadata' ++ (infos' ++ rest'), first, rfl, rfl⟩
    rw [headBytes, append_assoc _ metadata, append_assoc _ (metadata ++ infos), append_assoc metadata,
      append_assoc start', append_assoc start', append_assoc metadata'] at same
    rw [← same, read] at read'
    obtain ⟨rfl, long⟩ := Prod.mk.inj (Except.ok.inj read')
    obtain ⟨rfl, behind⟩ := append_inj same long
    obtain ⟨limited, rfl⟩ := entries.settled (by omega) _ metadata' _ _ ⟨count.symm.trans entriesFit, second⟩ behind
    obtain ⟨limited', rfl⟩ := tensors.settled (by omega) _ infos' _ _ ⟨count'.symm.trans tensorsFit, third⟩
      (append_cancel_left behind)
    exact ⟨⟨limited, limited'⟩, rfl⟩

/-- A written file is a layout, zeros up to the alignment of the writer, and the tensor data. -/
theorem toBytes_renders (flat : ∀ entry ∈ writer.tensors, entry.shape.length < 2 ^ 32)
    (written : writer.toBytes build = .ok bytes) :
    (∀ entry ∈ writer.tensors, entry.Sized build) ∧ ∃ head, head.length = writer.headSize ∧
      bytes = head ++ (List.replicate (padding writer.headSize writer.alignment) 0 ++ writer.tensorBytes) ∧
      (bytes.length ≤ isizeMax → Renders EncodesLayout writer.layout
        ((∀ entry ∈ writer.metadata, EntryLimited entry) ∧ ∀ entry ∈ writer.tensors, entry.Limited) head) := by
  obtain ⟨⟨last, buf⟩, ran, done⟩ := bind_ok written
  cases done
  rw [write] at ran
  replace ran := (writes_writeLeU32 _).bind_ok.mp ran
  replace ran := (writes_writeLeU32 _).bind_ok.mp ran
  replace ran := (writes_writeLeU64 _).bind_ok.mp ran
  replace ran := (writes_writeLeU64 _).bind_ok.mp ran
  obtain ⟨metadata, entries, full, wrote⟩ := entries_writes writer.entries 24
  replace ran := wrote.bind_ok.mp ran
  obtain ⟨⟨offsets, running⟩, middle, lifted, ran⟩ := state_bind_ok ran
  obtain ⟨_, placing, same⟩ := bind_ok lifted
  cases same
  obtain ⟨offsets, rfl, count, exactly⟩ := dataOffsets_ok placing
  obtain ⟨pos, middle, listed, ran⟩ := state_bind_ok ran
  have sized := tensorInfos_sized count listed
  obtain ⟨infos, tensors, full', wrote'⟩ := tensorInfos_writes count sized flat (24 + (writer.entries.map entrySize).sum)
  cases listed.symm.trans (wrote' _)
  replace ran := (padToAlignment_writes _ _).bind_ok.mp ran
  obtain ⟨last, wrote'⟩ := tensorBytes_writes writer.tensors
    (writer.headSize + padding writer.headSize writer.alignment)
  replace ran := (wrote' _).symm.trans ran
  cases ran
  refine ⟨sized, writer.headBytes metadata infos, ?_, ?_, fun addressable => ?_⟩
  · simp only [headBytes, length_append, length_leBytes, full, full', headSize]
  · simp only [headBytes, nil_append, append_assoc]
    rfl
  · simp only [length_append, length_leBytes, nil_append, full, full', length_replicate] at addressable
    have entryCount := length_le_sum writer.entries fun entry => (by
      rw [entrySize, stringSize]
      omega : 1 ≤ entrySize entry)
    have tensorCount := length_le_sum writer.tensors fun entry => (by
      rw [TensorEntry.infoSize]
      omega : 1 ≤ entry.infoSize)
    have largest : isizeMax < 2 ^ 64 := by decide
    have placing : writer.layout.tensors = _ :=
      (exactly sized (by
        change 0 + (writer.tensors.flatMap TensorEntry.data).length < 2 ^ 64
        omega)).symm
    rw [← placing] at tensors
    exact renders_layout entries tensors (by omega) (by omega)

/-- A file that is written under the limits of the reader has a layout. -/
theorem toBytes_ok (limited : writer.Limited) (written : writer.toBytes build = .ok bytes)
    (addressable : bytes.length ≤ isizeMax) :
    (∀ entry ∈ writer.tensors, entry.Sized build) ∧ ∃ head, EncodesLayout writer.layout head ∧
      head.length = writer.headSize ∧
      bytes = head ++ (List.replicate (padding writer.headSize writer.alignment) 0 ++ writer.tensorBytes) := by
  have flat (entry : TensorEntry) (member : entry ∈ writer.tensors) : entry.shape.length < 2 ^ 32 :=
    lt_of_le_of_lt (limited.tensors entry member).2 (by decide)
  obtain ⟨sized, head, size, same, rendered⟩ := toBytes_renders flat written
  exact ⟨sized, head, (rendered addressable).encoded ⟨limited.entries, limited.tensors⟩, size, same⟩

end Pictor.Gguf

namespace Pictor.Gguf
open BuildArith GgufWriter InsertAll LittleEndian Outcome Slice List

variable {build : Build} {writer : GgufWriter} {tensors : List TensorEntry} {bytes : List UInt8}

/-- The alignment that a reader takes: the first one that is given, or the one of the writer. -/
def GgufWriter.storedAlignment (writer : GgufWriter) : UInt32 :=
  match writer.metadata.find? (·.1 = alignmentKey) with
  | some (_, value) => value.read.asU32.getD 32
  | none => UInt32.ofNat writer.alignment

/-- The reader gets the given entries, at most one more entry, and all tensors with their data. -/
def RoundTrips (build : Build) (writer : GgufWriter) (bytes : List UInt8) : Prop :=
  ∃ file, GgufFile.parse build bytes = .ok file ∧
    (∀ key value, (key, value) ∈ writer.metadata → file.metadata.lookup key = some value.read) ∧
    (∀ key ∈ file.metadata, key ∈ writer.metadata.map Prod.fst ∨ key = alignmentKey) ∧
    (∀ name ∈ file.tensors, name ∈ writer.tensors.map TensorEntry.name) ∧
    ∀ entry ∈ writer.tensors, ∃ info, file.tensors.lookup entry.name = some info ∧ info.name = entry.name ∧
      info.shape = entry.shape ∧ info.tensorType = entry.tensorType.read ∧
      file.tensorData build entry.name = .ok entry.data

variable {offset : Nat} {alignment : UInt64} {entry : TensorEntry} {pair : TensorEntry × TensorInfo}

/-- The numbers that are masked. -/
theorem maskUp_parts (positive : 0 < alignment.toNat) (small : offset + alignment.toNat < 2 ^ 64) :
    (UInt64.ofNat offset + alignment - 1).toNat = offset + alignment.toNat - 1 ∧
      (alignment - 1).toNat = alignment.toNat - 1 := by
  have one : (1 : UInt64) ≤ alignment := UInt64.le_iff_toNat_le.mpr positive
  have start : (UInt64.ofNat offset).toNat = offset := UInt64.toNat_ofNat_of_lt' (by change _ < 2 ^ 64; omega)
  have added : (UInt64.ofNat offset + alignment).toNat = offset + alignment.toNat := by
    rw [UInt64.toNat_add, start, Nat.mod_eq_of_lt small]
  refine ⟨?_, UInt64.toNat_sub_of_le _ _ one⟩
  rw [UInt64.toNat_sub_of_le, added]
  · rfl
  · rw [UInt64.le_iff_toNat_le, added]
    exact Nat.le_trans positive (Nat.le_add_left _ _)

theorem maskUp_bounds (nonzero : alignment ≠ 0) (small : offset + alignment.toNat < 2 ^ 64) :
    offset ≤ (maskUp offset alignment).toNat ∧ (maskUp offset alignment).toNat < offset + alignment.toNat := by
  have positive : 0 < alignment.toNat :=
    Nat.pos_of_ne_zero fun zero => nonzero (UInt64.toNat_inj.mp zero)
  obtain ⟨top, low⟩ := maskUp_parts positive small
  have masked := toNat_mask (UInt64.ofNat offset + alignment - 1) (alignment - 1)
  have inside : ((UInt64.ofNat offset + alignment - 1) &&& (alignment - 1)).toNat ≤ (alignment - 1).toNat := by
    rw [UInt64.toNat_and]
    exact Nat.and_le_right
  rw [maskUp]
  omega

/-- A power of two is met by the padding and by the mask alike. -/
theorem maskUp_powerOfTwo {exponent : Nat} (power : alignment.toNat = 2 ^ exponent)
    (small : offset + alignment.toNat < 2 ^ 64) :
    (maskUp offset alignment).toNat = offset + padding offset alignment.toNat := by
  have positive : 0 < alignment.toNat := by
    rw [power]
    exact Nat.two_pow_pos exponent
  obtain ⟨top, low⟩ := maskUp_parts positive small
  have masked := toNat_mask (UInt64.ofNat offset + alignment - 1) (alignment - 1)
  rw [UInt64.toNat_and, top, low, power, Nat.and_two_pow_sub_one_eq_mod, ← power] at masked
  have split := Nat.div_add_mod offset alignment.toNat
  have below := Nat.mod_lt offset positive
  rw [maskUp, padding]
  by_cases whole : offset % alignment.toNat = 0
  · have sum : offset + alignment.toNat - 1 = alignment.toNat - 1 + alignment.toNat * (offset / alignment.toNat) := by
      omega
    rw [sum, Nat.add_mul_mod_self_left, Nat.mod_eq_of_lt (by omega)] at masked
    rw [if_pos (Or.inr whole)]
    omega
  · have sum : offset + alignment.toNat - 1 =
        offset % alignment.toNat - 1 + alignment.toNat * (offset / alignment.toNat + 1) := by
      rw [Nat.mul_add, Nat.mul_one]
      omega
    rw [sum, Nat.add_mul_mod_self_left, Nat.mod_eq_of_lt (by omega), Nat.mul_add, Nat.mul_one] at masked
    rw [if_neg (not_or.mpr ⟨positive.ne', whole⟩)]
    omega

/-- A debug build panics on an alignment of zero. Otherwise the offset is masked. -/
theorem alignOffset_eq (positive : 0 < offset) (addressable : offset ≤ isizeMax) (small : alignment.toNat < 2 ^ 32) :
    alignOffset build (UInt64.ofNat offset) alignment =
      if build = .debug ∧ alignment = 0 then .error .panic else .ok (maskUp offset alignment) := by
  cases build with
  | debug =>
      rw [alignOffset_debug positive addressable small]
      simp only [true_and]
  | release => rfl

/-- The alignment is stored by the caller, or by the writer, or is the default. -/
theorem entries_cases (writer : GgufWriter) :
    (alignmentKey ∈ writer.metadata.map Prod.fst ∧ writer.entries = writer.metadata) ∨
    (alignmentKey ∉ writer.metadata.map Prod.fst ∧ writer.alignment = 32 ∧ writer.entries = writer.metadata) ∨
    (alignmentKey ∉ writer.metadata.map Prod.fst ∧ writer.alignment ≠ 32 ∧
      writer.entries = (alignmentKey, .u32 (UInt32.ofNat writer.alignment)) :: writer.metadata) := by
  have given : writer.metadata.any (·.1 = alignmentKey) = true ↔ alignmentKey ∈ writer.metadata.map Prod.fst := by
    simp only [any_eq_true, decide_eq_true_eq, mem_map]
  rw [entries, alignmentEntry, ← given]
  cases writer.metadata.any (·.1 = alignmentKey) with
  | true => exact Or.inl ⟨rfl, rfl⟩
  | false =>
      by_cases plain : writer.alignment = 32
      · rw [if_neg fun both => both.2 plain]
        exact Or.inr (Or.inl ⟨nofun, plain, rfl⟩)
      · rw [if_pos ⟨rfl, plain⟩]
        exact Or.inr (Or.inr ⟨nofun, plain, rfl⟩)

theorem entries_nodup (limited : writer.Limited) : (writer.entries.map Prod.fst).Nodup := by
  rcases entries_cases writer with ⟨_, same⟩ | ⟨_, _, same⟩ | ⟨absent, _, same⟩
  · rw [same]
    exact limited.keys
  · rw [same]
    exact limited.keys
  · rw [same, map_cons, nodup_cons]
    exact ⟨absent, limited.keys⟩

theorem lookup_metadata (limited : writer.Limited) (key : List Char) (value : MetadataValue) :
    writer.layout.metadataStore.lookup key = some value ↔
      ∃ written, (key, written) ∈ writer.entries ∧ value = written.read := by
  have distinct : (writer.layout.metadata.map Prod.fst).Nodup := by
    rw [layout, map_map]
    exact entries_nodup limited
  rw [Layout.metadataStore, lookup_insertAll_empty distinct, layout, mem_map]
  constructor
  · rintro ⟨⟨_, written⟩, member, equal⟩
    cases equal
    exact ⟨written, member, rfl⟩
  · rintro ⟨written, member, rfl⟩
    exact ⟨_, member, rfl⟩

theorem alignment_layout (limited : writer.Limited) :
    GgufFile.alignment writer.layout.metadataStore = writer.storedAlignment.toUInt64 := by
  have found (value : MetadataWriteValue) (member : (alignmentKey, value) ∈ writer.entries) :
      GgufFile.alignment writer.layout.metadataStore = (value.read.asU32.getD 32).toUInt64 := by
    rw [GgufFile.alignment, (lookup_metadata limited _ _).mpr ⟨value, member, rfl⟩]
    rfl
  rw [storedAlignment]
  cases given : writer.metadata.find? (·.1 = alignmentKey) with
  | some entry =>
      obtain ⟨key, value⟩ := entry
      have named := find?_some given
      obtain rfl : key = alignmentKey := of_decide_eq_true named
      exact found value (mem_append_right _ (mem_of_find?_eq_some given))
  | none =>
      have absent : alignmentKey ∉ writer.metadata.map Prod.fst := by
        intro member
        obtain ⟨entry, member, same⟩ := mem_map.mp member
        exact find?_eq_none.mp given entry member (decide_eq_true same)
      rcases entries_cases writer with ⟨present, _⟩ | ⟨_, plain, same⟩ | ⟨_, _, same⟩
      · exact absurd present absent
      · have missing : writer.layout.metadataStore.lookup alignmentKey = none := by
          rw [Option.eq_none_iff_forall_ne_some]
          intro value stored
          obtain ⟨written, member, _⟩ := (lookup_metadata limited _ _).mp stored
          rw [same] at member
          exact absent (mem_map_of_mem member)
        rw [GgufFile.alignment, missing, plain]
        rfl
      · exact found (.u32 (UInt32.ofNat writer.alignment)) (by rw [same]; exact mem_cons_self)

/-- The reader computes the size that the writer computed. -/
theorem dataSize_info {size : UInt64} (sized : entry.expected build = .ok size) (offset : UInt64) :
    (entry.info offset).dataSize build = .ok size := by
  have counted (shape : List UInt64) (start count : UInt64)
      (done : shape.foldlM (fun count dim => build.mul WriteFailure.panic count dim) start = .ok count) :
      shape.foldlM (fun count dim => build.mul Failure.panic count dim) start = .ok count := by
    induction shape generalizing start with
    | nil =>
        cases done
        rfl
    | cons dim shape ih =>
        rw [foldlM_cons] at done ⊢
        obtain ⟨next, first, later⟩ := bind_ok done
        rw [Build.mul_ok first Failure.panic]
        exact ih next later
  obtain ⟨count, done, product⟩ := bind_ok sized
  rw [TensorInfo.dataSize, TensorEntry.info, TensorInfo.elementCount, counted _ _ _ done, blockSize_read,
    blockBytes_read]
  exact Build.mul_ok product Failure.panic

/-- The data of a tensor are read exactly if they stand at its offset. -/
theorem tensorData_ok {file : GgufFile} {offset : UInt64} (sized : entry.Sized build)
    (found : file.tensors.lookup entry.name = some (entry.info offset))
    (fits : file.dataOffset.toNat + offset.toNat + entry.data.length < 2 ^ 64) :
    file.tensorData build entry.name = .ok entry.data ↔
      StandsAt file.data (file.dataOffset.toNat + offset.toNat) entry.data := by
  obtain ⟨size, expected, same⟩ := sized
  rw [same] at fits
  rw [tensorData_sized found (dataSize_info expected offset) fits, standsAt_iff_slice, same]
  change (if file.dataOffset.toNat + offset.toNat + size.toNat > file.data.length then _ else _) = _ ↔ _
  by_cases inside : file.dataOffset.toNat + offset.toNat + size.toNat ≤ file.data.length
  · rw [if_neg (Nat.not_lt.mpr inside), Except.ok.injEq]
    exact (and_iff_right inside).symm
  · rw [if_pos (Nat.not_le.mp inside)]
    exact iff_of_false nofun fun both => inside both.1

/-- The tensors are read exactly if all data stand at the start of the placed tensors. -/
theorem placed_standsAt {elements : List UInt8} {base start : Nat}
    (small : start + (tensors.flatMap TensorEntry.data).length < 2 ^ 64) :
    (∀ pair ∈ tensors.zip (placed start tensors), StandsAt elements (base + pair.2.offset.toNat) pair.1.data) ↔
      tensors = [] ∨ StandsAt elements (base + start) (tensors.flatMap TensorEntry.data) := by
  induction tensors generalizing start with
  | nil => exact iff_of_true (fun _ none => (nomatch none)) (Or.inl rfl)
  | cons entry tensors ih =>
      rw [flatMap_cons, length_append, ← Nat.add_assoc] at small
      have here : (UInt64.ofNat start).toNat = start := UInt64.toNat_ofNat_of_lt' (by change _ < 2 ^ 64; omega)
      rw [placed, zip_cons_cons, forall_mem_cons, ih small, or_iff_right (cons_ne_nil _ _),
        flatMap_cons, standsAt_append]
      change StandsAt elements (base + (UInt64.ofNat start).toNat) entry.data ∧ _ ↔ _
      rw [here, Nat.add_assoc]
      refine and_congr_right fun first => ?_
      constructor
      · rintro (rfl | later)
        · exact ⟨by have := (standsAt_iff_slice _).mp first; omega, List.nil_prefix⟩
        · exact later
      · exact Or.inr

/-- Where a reader takes the tensor data from. -/
def GgufWriter.readStart (writer : GgufWriter) : Nat :=
  (maskUp writer.headSize writer.storedAlignment.toUInt64).toNat

/-- Where the tensor data are. -/
def GgufWriter.writtenStart (writer : GgufWriter) : Nat :=
  writer.headSize + padding writer.headSize writer.alignment

theorem exists_placed (member : entry ∈ tensors) (start : Nat) :
    ∃ info, (entry, info) ∈ tensors.zip (placed start tensors) := by
  have whole : (tensors.zip (placed start tensors)).map Prod.fst = tensors :=
    map_fst_zip (le_of_eq (length_placed start).symm)
  rw [← whole, mem_map] at member
  obtain ⟨⟨_, info⟩, member, rfl⟩ := member
  exact ⟨info, member⟩

theorem mem_placed {start : Nat} (small : start + (tensors.flatMap TensorEntry.data).length < 2 ^ 64)
    (member : pair ∈ tensors.zip (placed start tensors)) : ∃ offset, pair.2 = pair.1.info offset ∧
      offset.toNat + pair.1.data.length ≤ start + (tensors.flatMap TensorEntry.data).length := by
  induction tensors generalizing start with
  | nil => cases member
  | cons entry tensors ih =>
      rw [flatMap_cons, length_append, ← Nat.add_assoc] at small ⊢
      rw [placed, zip_cons_cons, mem_cons] at member
      rcases member with rfl | member
      · have here : (UInt64.ofNat start).toNat = start := UInt64.toNat_ofNat_of_lt' (by change _ < 2 ^ 64; omega)
        refine ⟨UInt64.ofNat start, rfl, ?_⟩
        rw [here]
        exact Nat.le_add_right _ _
      · exact ih small member

variable (limited : writer.Limited)
include limited

theorem lookup_placed (small : writer.tensorBytes.length < 2 ^ 64)
    (member : pair ∈ writer.tensors.zip (placed 0 writer.tensors)) :
    writer.layout.tensorStore.lookup pair.1.name = some pair.2 := by
  have distinct : ((writer.layout.tensors.map fun info => (info.name, info)).map Prod.fst).Nodup := by
    rw [map_map]
    change (writer.layout.tensors.map TensorInfo.name).Nodup
    rw [layout, map_placed (fun _ _ => rfl)]
    exact limited.names
  obtain ⟨offset, same, _⟩ := mem_placed (by rwa [Nat.zero_add]) member
  rw [Layout.tensorStore, lookup_insertAll_empty distinct, mem_map]
  refine ⟨pair.2, (of_mem_zip member).2, ?_⟩
  rw [same]
  rfl

theorem parse_written (written : writer.toBytes build = .ok bytes) (addressable : bytes.length ≤ isizeMax) :
    GgufFile.parse build bytes = if build = .debug ∧ writer.storedAlignment = 0 then .error .panic
      else .ok (writer.layout.file bytes (maskUp writer.headSize writer.storedAlignment.toUInt64)) := by
  obtain ⟨_, head, encoded, size, same⟩ := toBytes_ok limited written addressable
  have inside : head.length ≤ isizeMax := by
    rw [same, length_append] at addressable
    omega
  have narrow : writer.storedAlignment.toUInt64.toNat < 2 ^ 32 := by
    rw [UInt32.toNat_toUInt64]
    exact UInt32.toNat_lt _
  have zero : writer.storedAlignment.toUInt64 = 0 ↔ writer.storedAlignment = 0 := by
    rw [← UInt64.toNat_inj, UInt32.toNat_toUInt64, ← UInt32.toNat_inj]
    rfl
  rw [same, parse_encoded encoded, ← same, alignment_layout limited,
    alignOffset_eq (encodesLayout_positive encoded) inside narrow, size]
  simp only [zero]
  split <;> rfl

theorem metadata_found : (∀ key value, (key, value) ∈ writer.metadata →
      writer.layout.metadataStore.lookup key = some value.read) ∧
    ∀ key ∈ writer.layout.metadataStore, key ∈ writer.metadata.map Prod.fst ∨ key = alignmentKey := by
  constructor
  · intro key value member
    exact (lookup_metadata limited _ _).mpr ⟨value, mem_append_right _ member, rfl⟩
  · intro key stored
    obtain ⟨value, found⟩ := Option.isSome_iff_exists.mp (AList.lookup_isSome.mpr stored)
    obtain ⟨written, member, _⟩ := (lookup_metadata limited _ _).mp found
    have named : key ∈ writer.entries.map Prod.fst := mem_map_of_mem member
    rcases entries_cases writer with ⟨_, same⟩ | ⟨_, _, same⟩ | ⟨_, _, same⟩
    · rw [same] at named
      exact Or.inl named
    · rw [same] at named
      exact Or.inl named
    · rw [same, map_cons, mem_cons] at named
      exact named.symm

/-- The file is read exactly if its alignment does not panic and all data stand at the start that a reader takes. -/
theorem roundTrips_standsAt (written : writer.toBytes build = .ok bytes) (addressable : bytes.length ≤ isizeMax)
    (fits : writer.readStart + writer.tensorBytes.length < 2 ^ 64) :
    RoundTrips build writer bytes ↔ ¬(build = .debug ∧ writer.storedAlignment = 0) ∧
      (writer.tensors = [] ∨ StandsAt bytes writer.readStart writer.tensorBytes) := by
  obtain ⟨sized, _⟩ := toBytes_ok limited written addressable
  have small : writer.tensorBytes.length < 2 ^ 64 := Nat.lt_of_le_of_lt (Nat.le_add_left _ _) fits
  have stands := @placed_standsAt writer.tensors bytes writer.readStart 0 (by rwa [Nat.zero_add])
  rw [Nat.add_zero, ← tensorBytes] at stands
  rw [RoundTrips, parse_written limited written addressable]
  by_cases panics : build = .debug ∧ writer.storedAlignment = 0
  · rw [if_pos panics]
    exact iff_of_false (fun ⟨_, parsed, _⟩ => nomatch parsed) fun both => both.1 panics
  · rw [if_neg panics, and_iff_right panics]
    have read (pair : TensorEntry × TensorInfo) (member : pair ∈ writer.tensors.zip (placed 0 writer.tensors)) :
        (writer.layout.file bytes (maskUp writer.headSize writer.storedAlignment.toUInt64)).tensorData build
            pair.1.name = .ok pair.1.data ↔
          StandsAt bytes (writer.readStart + pair.2.offset.toNat) pair.1.data := by
      have found := lookup_placed limited small member
      obtain ⟨offset, info, inside⟩ := mem_placed (by rwa [Nat.zero_add]) member
      rw [info] at found ⊢
      apply tensorData_ok (sized pair.1 (of_mem_zip member).1) found
      change writer.readStart + offset.toNat + pair.1.data.length < 2 ^ 64
      change offset.toNat + pair.1.data.length ≤ 0 + writer.tensorBytes.length at inside
      omega
    rw [← stands]
    constructor
    · rintro ⟨_, ⟨⟩, _, _, _, tensors⟩ pair member
      obtain ⟨_, _, _, _, _, data⟩ := tensors pair.1 (of_mem_zip member).1
      exact (read pair member).mp data
    · intro all
      obtain ⟨given, others⟩ := metadata_found limited
      refine ⟨_, rfl, given, others, fun name stored => ?_, fun entry member => ?_⟩
      · rcases (mem_insertAll _ _ name).mp stored with named | none
        · rw [map_map] at named
          change name ∈ (placed 0 writer.tensors).map TensorInfo.name at named
          rwa [map_placed (fun _ _ => rfl)] at named
        · cases none
      · obtain ⟨info, member⟩ := exists_placed member 0
        obtain ⟨offset, same, _⟩ := mem_placed (by rwa [Nat.zero_add]) member
        refine ⟨info, lookup_placed limited small member, ?_, ?_, ?_, (read _ member).mpr (all _ member)⟩
        · exact congrArg TensorInfo.name same
        · exact congrArg TensorInfo.shape same
        · exact congrArg TensorInfo.tensorType same

omit limited

/-- A written file is read back exactly if the masked start meets the padded start, or if it lies in the padding
and the data are zeros. A release build masks an alignment of zero to the start of the file. -/
theorem roundTrips_iff (limited : writer.Limited) (written : writer.toBytes build = .ok bytes)
    (addressable : bytes.length ≤ isizeMax) : RoundTrips build writer bytes ↔
      if writer.storedAlignment = 0 then build = .release ∧ writer.tensorBytes <+: bytes
      else writer.tensors = [] ∨ writer.readStart = writer.writtenStart ∨
        writer.readStart < writer.writtenStart ∧ ∀ byte ∈ writer.tensorBytes, byte = 0 := by
  obtain ⟨_, head, _, size, same⟩ := toBytes_ok limited written addressable
  have narrow := UInt32.toNat_lt writer.storedAlignment
  have inside : writer.headSize + writer.tensorBytes.length ≤ isizeMax := by
    rw [same, length_append, length_append] at addressable
    omega
  have largest : isizeMax < 2 ^ 63 := by decide
  by_cases zero : writer.storedAlignment = 0
  · have start : writer.readStart = 0 := by
      rw [readStart, maskUp, zero]
      change (_ &&& (0 : UInt64)).toNat = 0
      rw [UInt64.and_zero]
      rfl
    rw [roundTrips_standsAt limited written addressable (by omega), if_pos zero, start, StandsAt, drop_zero,
      and_iff_right (Nat.zero_le _), and_iff_left zero]
    refine and_congr (by cases build <;> decide) (or_iff_right_of_imp fun none => ?_)
    rw [tensorBytes, none]
    exact List.nil_prefix
  · have nonzero : writer.storedAlignment.toUInt64 ≠ 0 := fun same => zero (by
      rw [← UInt32.toNat_inj, ← UInt32.toNat_toUInt64, same]
      rfl)
    have fits : writer.headSize + writer.storedAlignment.toUInt64.toNat < 2 ^ 64 := by
      rw [UInt32.toNat_toUInt64]
      omega
    obtain ⟨above, below⟩ := maskUp_bounds nonzero fits
    rw [UInt32.toNat_toUInt64] at below
    rw [roundTrips_standsAt limited written addressable (by rw [readStart]; omega), if_neg zero,
      and_iff_right fun both => zero both.2]
    have stands := @standsAt_padded _ writer.readStart head writer.tensorBytes
      (padding writer.headSize writer.alignment) 0 (by rw [size]; exact above)
    rw [same, stands, size]
    rfl

/-- A reader that takes the alignment of the writer, a power of two, takes the data from their place. -/
theorem readStart_powerOfTwo {exponent : Nat} (power : writer.alignment = 2 ^ exponent)
    (stored : writer.storedAlignment.toNat = writer.alignment) (small : writer.headSize + writer.alignment < 2 ^ 64) :
    writer.readStart = writer.writtenStart := by
  have same : writer.storedAlignment.toUInt64.toNat = writer.alignment := by
    rw [UInt32.toNat_toUInt64, stored]
  rw [readStart, writtenStart, maskUp_powerOfTwo (same.trans power) (by rwa [same]), same]

/-- A tensor of four bytes. -/
def smallTensor : TensorEntry := ⟨['t'], [1], .f32, [1, 2, 3, 4]⟩

/-- A writer of the default alignment. -/
def plainWriter : GgufWriter := new.addTensor smallTensor

def plainBytes : List UInt8 :=
  leBytes 4 0x46554747 ++ leBytes 4 3 ++ leBytes 8 1 ++ leBytes 8 0 ++ leBytes 8 1 ++ Utf8.encode ['t'] ++ leBytes 4 1 ++
    leBytes 8 1 ++ leBytes 4 0 ++ leBytes 8 0 ++ List.replicate 7 0 ++ [1, 2, 3, 4]

theorem smallTensor_limited {alignment : Nat} (small : alignment < 2 ^ 32) :
    ((new.setAlignment alignment).addTensor smallTensor).Limited := by
  refine ⟨nodup_nil, nodup_singleton _, small, fun _ none => (nomatch none), fun entry member => ?_⟩
  rw [mem_singleton.mp member]
  have short : (Utf8.encode ['t']).length ≤ maxStringLen := by decide
  have flat : 1 ≤ maxTensorDims := by decide
  exact ⟨short, flat⟩

theorem plainWriter_roundTrips : RoundTrips .debug plainWriter plainBytes :=
  (roundTrips_iff (smallTensor_limited (by decide : 32 < 2 ^ 32)) (by decide) (by decide)).mpr (by decide)

/-- A writer whose alignment is not a power of two. -/
def oddWriter : GgufWriter := (new.setAlignment 48).addTensor smallTensor

def oddBytes : List UInt8 :=
  leBytes 4 0x46554747 ++ leBytes 4 3 ++ leBytes 8 1 ++ leBytes 8 1 ++ leBytes 8 17 ++ Utf8.encode alignmentKey ++
    leBytes 4 4 ++ leBytes 4 48 ++ leBytes 8 1 ++ Utf8.encode ['t'] ++ leBytes 4 1 ++
    leBytes 8 1 ++ leBytes 4 0 ++ leBytes 8 0 ++ List.replicate 6 0 ++ [1, 2, 3, 4]

theorem oddWriter_unread : oddWriter.Limited ∧ oddWriter.toBytes .debug = .ok oddBytes ∧
    ¬RoundTrips .debug oddWriter oddBytes := by
  refine ⟨smallTensor_limited (by decide), by decide, ?_⟩
  rintro ⟨file, parsed, _, _, _, tensors⟩
  have unread : (match GgufFile.parse .debug oddBytes with
    | .ok file => (file.tensorData .debug ['t'] != .ok [1, 2, 3, 4] : Bool)
    | .error _ => true) = true := by decide
  obtain ⟨_, _, _, _, _, data⟩ := tensors smallTensor mem_cons_self
  rw [parsed] at unread
  exact bne_iff_ne.mp unread data

end Pictor.Gguf
