import Pictor.Proof.Gguf.StreamChunks
import Pictor.Proof.Gguf.WriterExact

namespace Pictor.Gguf
open BuildArith Incremental LittleEndian Slice List

namespace GgufStreamParser

/-- The parser that has read a layout. -/
def ofLayout (layout : Layout) (used rest : List UInt8) (dataOffset : UInt64) : GgufStreamParser where
  state := .readingTensorData
  buffer := rest
  result := ⟨layout.version, layout.metadata, layout.tensors.map TensorInfo.streamed, dataOffset⟩
  bytesConsumed := used.length
  totalMetadata := layout.metadata.length
  totalTensors := layout.tensors.length

variable {build : Build} {parser : GgufStreamParser} {used rest data : List UInt8}

theorem consume_append (parts : parser.buffer = used ++ rest) :
    parser.consume used.length =
      { parser with bytesConsumed := parser.bytesConsumed + used.length, buffer := rest } := by
  rw [consume, parts, drop_left]

/-- The entries are read one after another. -/
theorem run_entries {entries : List (List Char × GgufValue)} {used rest : List UInt8}
    (encoded : EncodesAll EncodesEntry entries used) {parser : GgufStreamParser}
    (state : parser.state = .readingMetadata entries.length) (parts : parser.buffer = used ++ rest) :
    run (step build) work parser = run (step build) work { parser with
      state := .readingMetadata 0
      buffer := rest
      result := { parser.result with metadata := parser.result.metadata ++ entries }
      bytesConsumed := parser.bytesConsumed + used.length } := by
  induction entries generalizing used parser with
  | nil =>
      obtain rfl := encodesAll_nil.mp encoded
      congr 1
      cases parser
      cases state
      cases parts
      simp
  | cons entry entries ih =>
      obtain ⟨front, back, first, later, rfl⟩ := encodesAll_cons.mp encoded
      rw [append_assoc] at parts
      have moved : step build parser = pure (afterEntry (entries.length + 1) (parser.consume front.length) entry) := by
        rw [step, state, length_cons]
        change (if entries.length + 1 = 0 then _ else _) = _
        rw [if_neg (Nat.succ_ne_zero _), tryParseOneMetadata_eq, reported_pure]
        exact (readThen_pure tryReadEntry_reads).mpr ⟨entry, front, first, ⟨_, parts.symm⟩, rfl⟩
      rw [(step_growing build).run_moved moved, consume_append parts]
      rw [ih later rfl rfl]
      simp only [afterEntry, length_append, Nat.add_assoc, append_assoc, singleton_append]

theorem run_tensors {infos : List TensorInfo} (encoded : EncodesAll EncodesTensor infos used)
    (state : parser.state = .readingTensorInfo infos.length) (parts : parser.buffer = used ++ rest) :
    run (step build) work parser = run (step build) work { parser with
      state := .readingTensorInfo 0
      buffer := rest
      result := { parser.result with
        tensorInfos := parser.result.tensorInfos ++ infos.map TensorInfo.streamed }
      bytesConsumed := parser.bytesConsumed + used.length } := by
  induction infos generalizing used parser with
  | nil =>
      obtain rfl := encodesAll_nil.mp encoded
      congr 1
      cases parser
      cases state
      cases parts
      simp
  | cons info infos ih =>
      obtain ⟨front, back, first, later, rfl⟩ := encodesAll_cons.mp encoded
      rw [append_assoc] at parts
      have moved : step build parser =
          pure (afterTensor (infos.length + 1) (parser.consume front.length) info.streamed) := by
        rw [step, state, length_cons]
        change (if infos.length + 1 = 0 then _ else _) = _
        rw [if_neg (Nat.succ_ne_zero _), tryParseOneTensorInfo_eq, reported_pure]
        exact (readThen_pure tryReadTensorInfo_reads).mpr ⟨_, front, ⟨info, rfl, first⟩, ⟨_, parts.symm⟩, rfl⟩
      rw [(step_growing build).run_moved moved, consume_append parts]
      rw [ih later rfl rfl]
      simp only [afterTensor, length_append, Nat.add_assoc, append_assoc, singleton_append,
        map_cons]

/-- A parser with no entry left reads the tensors and then the alignment. -/
theorem run_afterEntries {layout : Layout} {before tensors rest : List UInt8}
    (encoded : EncodesAll EncodesTensor layout.tensors tensors) :
    run (step build) work ⟨.readingMetadata 0, tensors ++ rest, ⟨layout.version, layout.metadata, [], 0⟩,
      before.length, layout.metadata.length, layout.tensors.length⟩ =
      (alignOffset build (UInt64.ofNat (before ++ tensors).length) (alignment layout.metadata)).map
        (ofLayout layout (before ++ tensors) rest) := by
  have growing := step_growing build
  have turned : step build ⟨.readingMetadata 0, tensors ++ rest, ⟨layout.version, layout.metadata, [], 0⟩,
      before.length, layout.metadata.length, layout.tensors.length⟩ = pure (transitionToTensorInfo
        ⟨.readingMetadata 0, tensors ++ rest, ⟨layout.version, layout.metadata, [], 0⟩,
          before.length, layout.metadata.length, layout.tensors.length⟩) := rfl
  rw [growing.run_moved turned, run_tensors encoded rfl rfl, length_append]
  let ready : GgufStreamParser := ⟨.readingTensorInfo 0, rest,
    ⟨layout.version, layout.metadata, layout.tensors.map TensorInfo.streamed, 0⟩,
    before.length + tensors.length, layout.metadata.length, layout.tensors.length⟩
  change run (step build) work ready = _
  have last : step build ready = answered (ready.finalize build) := rfl
  cases aligned : alignOffset build (UInt64.ofNat (before.length + tensors.length)) (alignment layout.metadata) with
  | error failure =>
      have finished : ready.finalize build = .error failure := by
        change (alignOffset build (UInt64.ofNat (before.length + tensors.length)) (alignment layout.metadata) >>= _) = _
        rw [aligned]
        rfl
      rw [finished] at last
      exact Growing.run_failed last
  | ok dataOffset =>
      have finished : ready.finalize build = .ok (ofLayout layout (before ++ tensors) rest dataOffset) := by
        rw [finalize_ok]
        refine ⟨dataOffset, aligned, ?_⟩
        rw [ofLayout, length_append]
      rw [finished] at last
      rw [growing.run_moved last, Growing.run_pending rfl]
      rfl

/-- The parser reads a layout to its end, and fails only at the alignment. -/
theorem run_encoded {layout : Layout} (encoded : EncodesLayout layout used) (rest : List UInt8) :
    run (step build) work (new.extend (used ++ rest)) =
      (alignOffset build (UInt64.ofNat used.length) (alignment layout.metadata)).map
        (ofLayout layout used rest) := by
  obtain ⟨header, start, metadata, tensors, first, version, entries, infos, second, third, rfl⟩ := encoded
  have parts : (new.extend (start ++ metadata ++ tensors ++ rest)).buffer =
      start ++ (metadata ++ (tensors ++ rest)) := by
    simp only [extend, new, nil_append, append_assoc]
  have begun : step build (new.extend (start ++ metadata ++ tensors ++ rest)) = pure (afterHeader
      ((new.extend (start ++ metadata ++ tensors ++ rest)).consume start.length)
      (header.version, header.tensorCount, header.metadataKvCount)) := by
    change reported (tryParseHeader _) = _
    rw [tryParseHeader_eq, reported_pure]
    exact (readThen_pure tryReadHeader_reads).mpr ⟨_, start, first, ⟨_, parts.symm⟩, rfl⟩
  rw [(step_growing build).run_moved begun, consume_append parts]
  have listed := @run_entries build layout.metadata metadata (tensors ++ rest) second
    ⟨.readingMetadata layout.metadata.length, metadata ++ (tensors ++ rest), ⟨layout.version, [], [], 0⟩,
      start.length, layout.metadata.length, layout.tensors.length⟩ rfl rfl
  have placed := @run_afterEntries build layout (start ++ metadata) tensors rest third
  have same : afterHeader { new.extend (start ++ metadata ++ tensors ++ rest) with
      bytesConsumed := (new.extend (start ++ metadata ++ tensors ++ rest)).bytesConsumed + start.length
      buffer := metadata ++ (tensors ++ rest) } (header.version, header.tensorCount, header.metadataKvCount) =
      ⟨.readingMetadata layout.metadata.length, metadata ++ (tensors ++ rest), ⟨layout.version, [], [], 0⟩,
        start.length, layout.metadata.length, layout.tensors.length⟩ := by
    rw [afterHeader, version, infos, entries]
    simp only [extend, new, Nat.zero_add]
  rw [same, listed, ← placed, length_append]
  rfl

/-- What the parser has read of the data, and what is left in the buffer. -/
def Reached (data : List UInt8) (parser : GgufStreamParser) : Prop :=
  match parser.state with
  | .readingHeader => data = parser.buffer
  | .readingMetadata remaining => ∃ header start entries metadata, EncodesHeader header start ∧
      EncodesAll EncodesEntry entries metadata ∧ data = start ++ metadata ++ parser.buffer ∧
      header.metadataKvCount.toNat = entries.length + remaining ∧
      header.tensorCount.toNat = parser.totalTensors
  | .readingTensorInfo remaining => ∃ header start entries metadata infos tensors, EncodesHeader header start ∧
      EncodesAll EncodesEntry entries metadata ∧ EncodesAll EncodesTensor infos tensors ∧
      data = start ++ metadata ++ tensors ++ parser.buffer ∧
      header.metadataKvCount.toNat = entries.length ∧ header.tensorCount.toNat = infos.length + remaining
  | .readingTensorData => HasLayout data
  | .complete => False

/-- A prefix of the buffer and the buffer behind it. -/
theorem consume_parts (here : used <+: parser.buffer) :
    parser.buffer = used ++ (parser.consume used.length).buffer := by
  obtain ⟨rest, same⟩ := here
  rw [consume_append same.symm, same]

/-- Each step reads the next part of a layout. -/
theorem reached_step {next : GgufStreamParser} (reached : Reached data parser) (moved : step build parser = pure next) :
    Reached data next := by
  rw [step] at moved
  cases state : parser.state with
  | readingHeader =>
      simp only [state, tryParseHeader_eq, reported_pure] at moved
      obtain ⟨counts, used, encoded, here, rfl⟩ := (readThen_pure tryReadHeader_reads).mp moved
      simp only [Reached, state] at reached
      refine ⟨_, used, [], [], encoded, encodesAll_nil.mpr rfl, ?_, (Nat.zero_add _).symm, rfl⟩
      rw [reached, append_nil]
      exact consume_parts here
  | readingMetadata remaining =>
      simp only [Reached, state] at reached
      obtain ⟨header, start, entries, metadata, first, second, rfl, listed, infos⟩ := reached
      by_cases none : remaining = 0
      · simp only [state, if_pos none] at moved
        rw [← pure_inj moved]
        refine ⟨header, start, entries, metadata, [], [], first, second, encodesAll_nil.mpr rfl, ?_, ?_, ?_⟩
        · rw [append_nil]
          rfl
        · omega
        · rw [infos, length_nil, Nat.zero_add]
      · simp only [state, if_neg none, tryParseOneMetadata_eq, reported_pure] at moved
        obtain ⟨entry, used, encoded, here, rfl⟩ := (readThen_pure tryReadEntry_reads).mp moved
        refine ⟨header, start, entries ++ [entry], metadata ++ used, first, encodesAll_concat second encoded,
          ?_, ?_, infos⟩
        · rw [consume_parts here]
          simp only [append_assoc]
          rfl
        · rw [length_append, length_singleton]
          omega
  | readingTensorInfo remaining =>
      simp only [Reached, state] at reached
      obtain ⟨header, start, entries, metadata, infos, tensors, first, second, third, rfl, listed, placed⟩ :=
        reached
      by_cases none : remaining = 0
      · simp only [state, if_pos none] at moved
        cases finished : parser.finalize build with
        | error failure =>
            rw [finished] at moved
            exact absurd moved (failed_ne_pure _ _)
        | ok last =>
            rw [finished] at moved
            rw [← pure_inj moved]
            obtain ⟨aligned, _, rfl⟩ := finalize_ok.mp finished
            have placed : header.tensorCount.toNat = infos.length := by omega
            exact ⟨⟨header.version, entries, infos⟩, start ++ metadata ++ tensors, parser.buffer,
              ⟨header, start, metadata, tensors, first, rfl, listed, placed, second, third, rfl⟩, rfl⟩
      · simp only [state, if_neg none, tryParseOneTensorInfo_eq, reported_pure] at moved
        obtain ⟨streamed, used, ⟨info, _, encoded⟩, here, rfl⟩ := (readThen_pure tryReadTensorInfo_reads).mp moved
        refine ⟨header, start, entries, metadata, infos ++ [info], tensors ++ used, first, second,
          encodesAll_concat third encoded, ?_, listed, ?_⟩
        · rw [consume_parts here]
          simp only [append_assoc]
          rfl
        · rw [length_append, length_singleton]
          omega
  | readingTensorData =>
      simp only [state] at moved
      exact absurd moved (pending_ne_pure _)
  | complete =>
      simp only [state] at moved
      exact absurd moved (pending_ne_pure _)

/-- A parser that is complete has read a layout. -/
theorem complete_hasLayout (ended : run (step build) work (new.extend data) = .ok parser)
    (complete : parser.isComplete = true) :
    HasLayout data := by
  have start : Reached data (new.extend data) := rfl
  have reached := (step_growing build).run_invariant (fun _ _ => reached_step) start ended
  cases state : parser.state with
  | readingTensorData => simpa only [Reached, state] using reached
  | complete => simp only [Reached, state] at reached
  | _ => simp [isComplete, state] at complete

end GgufStreamParser

end Pictor.Gguf

namespace Pictor.Gguf.GgufStreamParser
open BuildArith Incremental LittleEndian List

variable {build : Build}

theorem feed_map {parser : GgufStreamParser} {data : List UInt8} (nonempty : data ≠ []) :
    (feed build parser data).map Prod.snd = run (step build) work (parser.extend data) := by
  rw [feed, if_neg nonempty]
  cases run (step build) work (parser.extend data) <;> rfl

variable {chunks : List (List UInt8)}

theorem feedAll_runs (nonempty : [] ∉ chunks) (parser : GgufStreamParser) :
    feedAll build parser chunks =
      chunks.foldlM (fun parser chunk => run (step build) work (parser.extend chunk)) parser := by
  induction chunks generalizing parser with
  | nil => rfl
  | cons first chunks ih =>
      rw [mem_cons, not_or] at nonempty
      rw [feedAll, foldlM_cons, foldlM_cons, feed_map (Ne.symm nonempty.1)]
      congr 1
      funext next
      exact ih nonempty.2 next

/-- The parser takes the chunks as it takes the whole data. -/
theorem feedAll_new (nonempty : [] ∉ chunks) :
    feedAll build new chunks = run (step build) work (new.extend chunks.flatten) := by
  cases chunks with
  | nil => exact (Growing.run_pending rfl).symm
  | cons first chunks =>
      rw [feedAll_runs nonempty]
      exact (step_growing build).feed_flatten chunks new first

/-- The parser is complete on a prefix of the data exactly if the layout has arrived. -/
theorem run_prefix {layout : Layout} {used rest arrived : List UInt8} (encoded : EncodesLayout layout used)
    (here : arrived <+: used ++ rest) {last : GgufStreamParser}
    (whole : run (step build) work (new.extend (used ++ rest)) = .ok last) :
    ∃ parser, run (step build) work (new.extend arrived) = .ok parser ∧
      (parser.isComplete = true ↔ used.length ≤ arrived.length) := by
  obtain ⟨more, same⟩ := here
  have growing := step_growing build
  have split : run (step build) work (new.extend (used ++ rest)) =
      (run (step build) work (new.extend arrived) >>= fun parser => run (step build) work (parser.extend more)) := by
    rw [← same, ← growing.appends, growing.run_grow]
  cases ended : run (step build) work (new.extend arrived) with
  | error failure =>
      rw [split, ended] at whole
      cases whole
  | ok parser =>
      refine ⟨parser, rfl, fun complete => ?_, fun enough => ?_⟩
      · obtain ⟨layout', used', rest', encoded', rfl⟩ := complete_hasLayout ended complete
        rw [append_assoc] at same
        obtain ⟨_, rfl, _⟩ := layout_unique encoded' encoded same
        rw [length_append]
        omega
      · obtain ⟨rest', rfl⟩ : used <+: arrived :=
          prefix_of_prefix_length_le ⟨rest, rfl⟩ ⟨more, same⟩ enough
        rw [run_encoded encoded] at ended whole
        cases aligned : alignOffset build (UInt64.ofNat used.length) (alignment layout.metadata) with
        | error failure =>
            rw [aligned] at whole
            cases whole
        | ok dataOffset =>
            rw [aligned] at ended
            cases ended
            rfl

end Pictor.Gguf.GgufStreamParser

namespace Pictor.Gguf
open BuildArith Incremental InsertAll LittleEndian GgufStreamParser List

variable {build : Build} {data : List UInt8}

theorem map_eq_ok {Result Next : Type} {step : Except Failure Result} {change : Result → Next} {next : Next} :
    step.map change = .ok next ↔ ∃ result, step = .ok result ∧ change result = next := by
  cases step with
  | error failure => exact ⟨(nomatch ·), fun ⟨_, same, _⟩ => (nomatch same)⟩
  | ok result =>
      constructor
      · rintro ⟨⟩
        exact ⟨result, rfl, rfl⟩
      · rintro ⟨_, ⟨⟩, rfl⟩
        rfl

/-- The stream reports a layout and its own start of the tensor data. -/
theorem ofWhole_encoded {layout : Layout} {used : List UInt8} (encoded : EncodesLayout layout used)
    (rest : List UInt8) : ofWhole build (used ++ rest) =
      (alignOffset build (UInt64.ofNat used.length) (GgufStreamParser.alignment layout.metadata)).map
        fun dataOffset => ⟨layout.version, layout.metadata, layout.tensors.map TensorInfo.streamed, dataOffset⟩ := by
  have nonempty : used ++ rest ≠ [] := by
    intro empty
    have positive := encodesLayout_positive encoded
    rw [(append_eq_nil_iff.mp empty).1] at positive
    cases positive
  rw [ofWhole, feed, if_neg nonempty, run_encoded encoded]
  cases alignOffset build (UInt64.ofNat used.length) (GgufStreamParser.alignment layout.metadata) <;> rfl

theorem ofWhole_unencoded (none : ¬HasLayout data) (result : StreamedGguf) : ofWhole build data ≠ .ok result := by
  rw [ofWhole, feed]
  by_cases empty : data = []
  · rw [if_pos empty]
    exact fun same => nomatch same
  · rw [if_neg empty]
    cases ended : run (step build) work (new.extend data) with
    | error failure => exact fun same => nomatch same
    | ok parser =>
        have incomplete : parser.isComplete = false := by
          rw [← Bool.not_eq_true]
          exact fun complete => none (complete_hasLayout ended complete)
        change returned parser.finish ≠ _
        rw [finish, incomplete]
        exact fun same => nomatch same

/-- The alignment is stored at most once, and as a type that both readers take or that none takes. -/
def PlainAlignment (metadata : List (List Char × MetadataValue)) : Prop :=
  (metadata.filter (·.1 = alignmentKey)).length ≤ 1 ∧
    ∀ value, (alignmentKey, value) ∈ metadata →
      (∀ number, value ≠ .uint64 number) ∧ ∀ number, value ≠ .int32 number

/-- The readers take the same alignment. -/
theorem alignment_same {metadata : List (List Char × MetadataValue)} (plain : PlainAlignment metadata) :
    GgufStreamParser.alignment metadata = GgufFile.alignment (insertAll metadata ∅) := by
  obtain ⟨once, typed⟩ := plain
  rw [GgufStreamParser.alignment, GgufFile.alignment, lookup_insertAll_last, ← head?_filter]
  cases listed : metadata.filter (·.1 = alignmentKey) with
  | nil => rfl
  | cons entry others =>
      obtain ⟨key, value⟩ := entry
      have alone : others = [] := by
        rw [listed, length_cons] at once
        exact length_eq_zero_iff.mp (by omega)
      have member : (key, value) ∈ metadata.filter (·.1 = alignmentKey) := by
        rw [listed]
        exact mem_cons_self
      obtain ⟨member, named⟩ := mem_filter.mp member
      obtain rfl : key = alignmentKey := of_decide_eq_true named
      obtain ⟨notU64, notI32⟩ := typed value member
      rw [alone]
      cases value with
      | uint64 number => exact absurd rfl (notU64 number)
      | int32 number => exact absurd rfl (notI32 number)
      | _ => rfl

/-- The dimensions that a streamed tensor keeps. -/
def StreamedTensorInfo.shape (info : StreamedTensorInfo) : List UInt64 :=
  (List.ofFn info.dims).take info.nDims.toNat

/-- Both readers succeed or fail, and both say the same of every key and of every tensor. -/
def Agree (build : Build) (data : List UInt8) : Prop :=
  ((∃ result, ofWhole build data = .ok result) ↔ ∃ file, GgufFile.parse build data = .ok file) ∧
    ∀ result file, ofWhole build data = .ok result → GgufFile.parse build data = .ok file →
      result.version = file.header.version ∧ result.dataOffset = file.dataOffset ∧
      (∀ key, (result.metadata.find? (·.1 = key)).map (·.2) = file.metadata.lookup key) ∧
      ∀ name, (result.tensorInfos.find? (·.name = name)).map (fun info => (info.shape, info.tensorType, info.offset)) =
        (file.tensors.lookup name).map fun info => (info.shape, info.tensorType, info.offset)

/-- A file with one tensor whose last of five dimensions is two. -/
def fiveDims : List UInt8 :=
  leBytes 4 0x46554747 ++ leBytes 4 3 ++ leBytes 8 1 ++ leBytes 8 0 ++ leBytes 8 1 ++ Utf8.encode ['t'] ++
    leBytes 4 5 ++ leBytes 8 1 ++ leBytes 8 1 ++ leBytes 8 1 ++ leBytes 8 1 ++ leBytes 8 2 ++ leBytes 4 0 ++
    leBytes 8 0

end Pictor.Gguf

namespace Pictor.Gguf.GgufWriter
open BuildArith List Slice

end Pictor.Gguf.GgufWriter
