import Pictor.Proof.Gguf.StreamFormat

namespace Pictor.Gguf
open BuildArith Incremental LittleEndian Slice List

section Kept

variable {buf : List UInt8} (more : List UInt8)

/-- More input leaves a field as it is. -/
theorem tryField_keeps (offset size : Nat) : Keeps (tryField buf offset size) (tryField (buf ++ more) offset size) := by
  rw [tryField, tryField]
  by_cases short : offset + size > buf.length
  · rw [if_pos short]
    exact Or.inl rfl
  · have enough : ¬offset + size > (buf ++ more).length := by
      rw [length_append]
      omega
    have same : slice (buf ++ more) offset size = slice buf offset size := by
      rw [slice, slice, drop_append_of_le_length (by omega), take_append_of_le_length]
      rw [length_drop]
      omega
    rw [if_neg short, if_neg enough, same]
    exact Keeps.refl _

theorem tryReadGgufString_keeps (offset : Nat) :
    Keeps (tryReadGgufString buf offset) (tryReadGgufString (buf ++ more) offset) := by
  apply (tryField_keeps more offset 8).bind
  intro bytes _
  dsimp only
  split
  · exact Keeps.refl _
  · exact (tryField_keeps more _ _).bind fun _ _ => Keeps.refl _

theorem tryFixed_keeps (offset size : Nat) (value : List UInt8 → GgufValue) :
    Keeps (tryFixed buf offset size value) (tryFixed (buf ++ more) offset size value) :=
  (tryField_keeps more _ _).bind fun _ _ => Keeps.refl _

theorem tryMany_keeps {Value : Type} {read read' : Nat → Answer BonsaiError (Value × Nat)}
    {encodes : Value → List UInt8 → Prop} {low : Nat}
    (reads : ∀ pos, low ≤ pos → pos ≤ buf.length → Reads buf pos (read pos) encodes)
    (keeps : ∀ pos, low ≤ pos → pos ≤ buf.length → Keeps (read pos) (read' pos)) (count : Nat) {pos : Nat}
    (after : low ≤ pos) (inside : pos ≤ buf.length) : Keeps (tryMany read count pos) (tryMany read' count pos) := by
  induction count generalizing pos with
  | zero => exact Keeps.refl _
  | succ count ih =>
      apply (keeps pos after inside).bind
      rintro ⟨value, next⟩ first
      obtain ⟨used, _, here, rfl⟩ := (reads pos after inside value next).mp first
      have behind := (prefix_slice here inside).1
      exact (ih (by omega) behind).bind fun _ _ => Keeps.refl _

theorem tryReadString_keeps (depth depth' offset : Nat) :
    Keeps (tryReadValue buf depth offset .string) (tryReadValue (buf ++ more) depth' offset .string) := by
  have unfolded (buf : List UInt8) (depth : Nat) : tryReadValue buf depth offset .string =
      (tryReadGgufString buf offset >>= fun result => pure (.string result.1, result.2)) := by
    cases depth <;> rfl
  rw [unfolded, unfolded]
  exact (tryReadGgufString_keeps more offset).bind fun _ _ => Keeps.refl _

/-- The depth need not be the same, when it is enough for the bytes. -/
theorem tryReadValue_keeps {depth depth' offset : Nat} {type : GgufValueType} (inside : offset ≤ buf.length)
    (deep : buf.length - offset ≤ depth) (deep' : (buf ++ more).length - offset ≤ depth') :
    Keeps (tryReadValue buf depth offset type) (tryReadValue (buf ++ more) depth' offset type) := by
  induction depth generalizing depth' offset type with
  | zero =>
      cases shape : type.fixed with
      | some both =>
          rw [tryReadValue_fixed shape, tryReadValue_fixed shape]
          exact tryFixed_keeps more _ _ _
      | none =>
          rcases fixed_none shape with rfl | rfl
          · exact tryReadString_keeps more _ _ _
          · exact Or.inl (by rw [tryReadValue])
  | succ depth ih =>
      cases shape : type.fixed with
      | some both =>
          rw [tryReadValue_fixed shape, tryReadValue_fixed shape]
          exact tryFixed_keeps more _ _ _
      | none =>
          rcases fixed_none shape with rfl | rfl
          · exact tryReadString_keeps more _ _ _
          · by_cases short : offset + 12 > buf.length
            · refine Or.inl ?_
              rw [tryReadValue, tryField, if_pos short, pending_bind]
            · obtain ⟨depth', rfl⟩ : ∃ less, depth' = less + 1 := ⟨depth' - 1, by
                rw [length_append] at deep'
                omega⟩
              rw [tryReadValue, tryReadValue]
              apply (tryField_keeps more offset 12).bind
              intro bytes _
              apply (Keeps.refl _).bind
              intro elemType _
              dsimp only
              split
              · exact Keeps.refl _
              · refine Keeps.bind ?_ fun _ _ => Keeps.refl _
                have deeper : (buf ++ more).length - (offset + 12) ≤ depth' := by
                  rw [length_append] at deep' ⊢
                  omega
                refine @tryMany_keeps buf _ _ _ (EncodesValue elemType) (offset + 12) ?_ ?_ _ _ le_rfl
                  (Nat.not_lt.mp short)
                · intro pos after within
                  exact tryReadValue_reads within (by omega)
                · intro pos after within
                  exact ih within (by omega) (by omega)

theorem tryReadEntry_keeps : Keeps (tryReadEntry buf) (tryReadEntry (buf ++ more)) := by
  apply (tryReadGgufString_keeps more 0).bind
  rintro ⟨key, pos⟩ first
  obtain ⟨used, _, here, rfl⟩ := (tryReadGgufString_reads (Nat.zero_le _) _ _).mp first
  have behind := (prefix_slice here (Nat.zero_le _)).1
  apply (tryField_keeps more _ 4).bind
  intro bytes second
  obtain ⟨full, there⟩ := (tryField_eq behind).mp second
  have after := (prefix_slice there behind).1
  rw [full] at after
  apply (Keeps.refl _).bind
  intro type _
  exact (tryReadValue_keeps more after le_rfl le_rfl).bind fun _ _ => Keeps.refl _

theorem tryReadTensorInfo_keeps : Keeps (tryReadTensorInfo buf) (tryReadTensorInfo (buf ++ more)) := by
  apply (tryReadGgufString_keeps more 0).bind
  rintro ⟨name, pos⟩ _
  apply (tryField_keeps more pos 4).bind
  intro bytes _
  dsimp only
  split
  · exact Keeps.refl _
  · apply (tryField_keeps more _ _).bind
    intro dims _
    apply (tryField_keeps more _ 4).bind
    intro typeBytes _
    apply (Keeps.refl _).bind
    intro type _
    exact (tryField_keeps more _ 8).bind fun _ _ => Keeps.refl _

theorem tryReadHeader_keeps : Keeps (tryReadHeader buf) (tryReadHeader (buf ++ more)) :=
  (tryField_keeps more 0 headerSize).bind fun _ _ => Keeps.refl _

end Kept

variable {Result : Type} {answer : Answer BonsaiError Result}

theorem reported_pure {result : Result} :
    reported answer = pure result ↔ answer = pure result := by
  rcases answer_cases answer with rfl | ⟨error, rfl⟩ | ⟨other, rfl⟩
  · exact ⟨fun same => absurd same (pending_ne_pure _), fun same => absurd same (pending_ne_pure _)⟩
  · exact ⟨fun same => absurd same (failed_ne_pure _ _), fun same => absurd same (failed_ne_pure _ _)⟩
  · exact ⟨fun same => congrArg pure (pure_inj same), fun same => by rw [pure_inj same]; rfl⟩

theorem reported_failed {failure : Failure} :
    reported answer = failed failure ↔ ∃ error, answer = failed error ∧ failure = .error error := by
  rcases answer with error | (_ | result)
  · constructor
    · rintro ⟨⟩
      exact ⟨error, rfl, rfl⟩
    · rintro ⟨_, ⟨⟩, rfl⟩
      rfl
  · exact ⟨(nomatch ·), fun ⟨_, same, _⟩ => (nomatch same)⟩
  · exact ⟨(nomatch ·), fun ⟨_, same, _⟩ => (nomatch same)⟩

namespace GgufStreamParser

theorem consume_extend {parser : GgufStreamParser} {pos : Nat} (inside : pos ≤ parser.buffer.length)
    (more : List UInt8) : (parser.extend more).consume pos = (parser.consume pos).extend more := by
  rw [extend, consume, extend, consume, drop_append_of_le_length inside]

/-- A reader at the start of the buffer, and the change of the parser that its value makes. -/
def readThen {Value : Type} (read : List UInt8 → Answer BonsaiError (Value × Nat))
    (change : GgufStreamParser → Value → GgufStreamParser) (parser : GgufStreamParser) :
    Answer BonsaiError GgufStreamParser :=
  read parser.buffer >>= fun result => pure (change (parser.consume result.2) result.1)

section Reading

variable {Value : Type} {read : List UInt8 → Answer BonsaiError (Value × Nat)}
  {encodes : Value → List UInt8 → Prop} {change : GgufStreamParser → Value → GgufStreamParser}
  {parser next : GgufStreamParser}

theorem readThen_pure (reads : Reads parser.buffer 0 (read parser.buffer) encodes) :
    readThen read change parser = pure next ↔ ∃ value used, encodes value used ∧ used <+: parser.buffer ∧
      next = change (parser.consume used.length) value := by
  rw [readThen, bind_eq_pure]
  constructor
  · rintro ⟨⟨value, pos⟩, first, done⟩
    obtain ⟨used, encoded, here, rfl⟩ := (reads value pos).mp first
    rw [Nat.zero_add] at done
    exact ⟨value, used, encoded, here, (pure_inj done).symm⟩
  · rintro ⟨value, used, encoded, here, rfl⟩
    refine ⟨(value, 0 + used.length), (reads _ _).mpr ⟨used, encoded, here, rfl⟩, ?_⟩
    rw [Nat.zero_add]

/-- More input leaves the step of a reader as it is. -/
theorem readThen_extend (reads : Reads parser.buffer 0 (read parser.buffer) encodes)
    (keeps : ∀ more, Keeps (read parser.buffer) (read (parser.buffer ++ more)))
    (commutes : ∀ parser value more, change (extend parser more) value = (change parser value).extend more)
    (more : List UInt8) :
    (∀ next, readThen read change parser = pure next →
      readThen read change (parser.extend more) = pure (next.extend more)) ∧
    ∀ error, readThen read change parser = failed error → readThen read change (parser.extend more) = failed error := by
  have kept : Keeps (read parser.buffer) (read (parser.extend more).buffer) := keeps more
  constructor
  · intro next moved
    obtain ⟨⟨value, pos⟩, first, done⟩ := bind_eq_pure.mp moved
    obtain ⟨used, _, here, rfl⟩ := (reads value pos).mp first
    have inside := (prefix_slice here (Nat.zero_le _)).1
    rcases kept with waits | same
    · rw [waits] at first
      exact absurd first (pending_ne_pure _)
    · rw [readThen, ← same, first, pure_bind, consume_extend inside, commutes, ← pure_inj done]
  · intro error stopped
    rcases kept with waits | same
    · rw [readThen, waits] at stopped
      cases stopped
    · rcases answer_cases (read parser.buffer) with waits | ⟨other, wrong⟩ | ⟨result, good⟩
      · rw [readThen, waits] at stopped
        cases stopped
      · rw [readThen, wrong] at stopped
        rw [readThen, ← same, wrong]
        exact stopped
      · rw [readThen, good] at stopped
        cases stopped

end Reading

/-- The parser after its header. -/
def afterHeader (parser : GgufStreamParser) (counts : UInt32 × UInt64 × UInt64) : GgufStreamParser :=
  { parser with
    result := { parser.result with version := counts.1 }
    totalMetadata := counts.2.2.toNat
    totalTensors := counts.2.1.toNat
    state := .readingMetadata counts.2.2.toNat }

def afterEntry (remaining : Nat) (parser : GgufStreamParser) (entry : List Char × GgufValue) :
    GgufStreamParser :=
  { parser with
    result := { parser.result with metadata := parser.result.metadata ++ [entry] }
    state := .readingMetadata (remaining - 1) }

def afterTensor (remaining : Nat) (parser : GgufStreamParser) (info : StreamedTensorInfo) :
    GgufStreamParser :=
  { parser with
    result := { parser.result with tensorInfos := parser.result.tensorInfos ++ [info] }
    state := .readingTensorInfo (remaining - 1) }

theorem tryParseHeader_eq (parser : GgufStreamParser) :
    parser.tryParseHeader = readThen tryReadHeader afterHeader parser := rfl

theorem tryParseOneMetadata_eq (parser : GgufStreamParser) (remaining : Nat) :
    parser.tryParseOneMetadata remaining = readThen tryReadEntry (afterEntry remaining) parser := rfl

theorem tryParseOneTensorInfo_eq (parser : GgufStreamParser) (remaining : Nat) :
    parser.tryParseOneTensorInfo remaining = readThen tryReadTensorInfo (afterTensor remaining) parser := rfl

theorem finalize_extend (build : Build) (parser : GgufStreamParser) (more : List UInt8) :
    (parser.extend more).finalize build = (parser.finalize build).map (extend · more) := by
  rw [finalize, finalize]
  change (alignOffset build (UInt64.ofNat parser.bytesConsumed) (alignment parser.result.metadata) >>= _) =
    (alignOffset build (UInt64.ofNat parser.bytesConsumed) (alignment parser.result.metadata) >>= _).map _
  cases alignOffset build (UInt64.ofNat parser.bytesConsumed) (alignment parser.result.metadata) <;> rfl

/-- A step that reads takes bytes, stays in its stage, and does not depend on more input. -/
theorem reported_extend {Value : Type} {read : List UInt8 → Answer BonsaiError (Value × Nat)}
    {encodes : Value → List UInt8 → Prop} {change : GgufStreamParser → Value → GgufStreamParser}
    {parser : GgufStreamParser} (reads : Reads parser.buffer 0 (read parser.buffer) encodes)
    (keeps : ∀ more, Keeps (read parser.buffer) (read (parser.buffer ++ more)))
    (commutes : ∀ parser value more, change (extend parser more) value = (change parser value).extend more)
    (positive : ∀ value used, encodes value used → 0 < used.length) {stage : Nat}
    (before : parser.work = parser.buffer.length + stage)
    (after : ∀ pos value, (change (parser.consume pos) value).work ≤ parser.buffer.length - pos + stage)
    (more : List UInt8) :
    (∀ next, reported (readThen read change parser) = pure next →
      reported (readThen read change (parser.extend more)) = pure (next.extend more) ∧ next.work < parser.work) ∧
    ∀ failure, reported (readThen read change parser) = failed failure →
      reported (readThen read change (parser.extend more)) = failed failure := by
  obtain ⟨grows, fails⟩ := readThen_extend reads keeps commutes more
  constructor
  · intro next moved
    have inner := reported_pure.mp moved
    refine ⟨reported_pure.mpr (grows next inner), ?_⟩
    obtain ⟨value, used, encoded, here, rfl⟩ := (readThen_pure reads).mp inner
    have short := here.length_le
    have some := positive value used encoded
    have less := after used.length value
    omega
  · intro failure stopped
    obtain ⟨error, inner, rfl⟩ := reported_failed.mp stopped
    exact reported_failed.mpr ⟨error, fails error inner, rfl⟩

variable {used : List UInt8}

theorem encodesString_positive {text : List Char} (encoded : EncodesString text used) :
    0 < used.length := by
  rw [encoded.2, length_append, length_leBytes]
  omega

theorem encodesEntry_positive {entry : List Char × GgufValue} (encoded : EncodesEntry entry used) :
    0 < used.length := by
  obtain ⟨_, key, _, named, _, rfl⟩ := encoded
  have some := encodesString_positive named
  simp only [length_append]
  omega

theorem encodesTensor_positive {info : TensorInfo} (encoded : EncodesTensor info used) :
    0 < used.length := by
  obtain ⟨name, named, _, rfl⟩ := encoded
  have some := encodesString_positive named
  simp only [length_append]
  omega

theorem encodesHeader_positive {header : GgufHeader} (encoded : EncodesHeader header used) :
    0 < used.length := by
  rw [encoded.2]
  simp only [length_append, length_leBytes]
  omega

/-- The parser is finished with the start of the tensor data. -/
theorem finalize_ok {build : Build} {parser last : GgufStreamParser} :
    parser.finalize build = .ok last ↔ ∃ aligned,
      alignOffset build (UInt64.ofNat parser.bytesConsumed) (alignment parser.result.metadata) = .ok aligned ∧
      last = { parser with
        result := { parser.result with dataOffset := aligned }
        state := .readingTensorData } := by
  rw [finalize]
  cases alignOffset build (UInt64.ofNat parser.bytesConsumed) (alignment parser.result.metadata) with
  | error failure => exact ⟨(nomatch ·), fun ⟨_, same, _⟩ => (nomatch same)⟩
  | ok aligned =>
      constructor
      · rintro ⟨⟩
        exact ⟨aligned, rfl, rfl⟩
      · rintro ⟨_, ⟨⟩, rfl⟩
        rfl

/-- One step, whatever its state is. -/
theorem step_extend (build : Build) (parser : GgufStreamParser) (more : List UInt8) :
    (∀ next, step build parser = pure next →
      step build (parser.extend more) = pure (next.extend more) ∧ next.work < parser.work) ∧
    ∀ failure, step build parser = failed failure → step build (parser.extend more) = failed failure := by
  have length (pos : Nat) : (parser.consume pos).buffer.length = parser.buffer.length - pos :=
    length_drop
  have same : (parser.extend more).state = parser.state := rfl
  rw [step, step, same]
  cases state : parser.state with
  | readingHeader =>
      simp only [tryParseHeader_eq]
      refine reported_extend tryReadHeader_reads (fun more => tryReadHeader_keeps more) (fun _ _ _ => rfl)
        (fun _ _ => encodesHeader_positive) (by rw [work, state] : parser.work = parser.buffer.length + 3)
        (fun pos counts => ?_) more
      change (parser.consume pos).buffer.length + 2 ≤ _
      rw [length]
      omega
  | readingMetadata remaining =>
      by_cases none : remaining = 0
      · simp only [if_pos none]
        refine ⟨fun next moved => ?_, fun failure stopped => (nomatch stopped)⟩
        rw [← pure_inj moved]
        refine ⟨rfl, ?_⟩
        rw [work, work, state]
        exact Nat.lt_succ_self _
      · simp only [if_neg none, tryParseOneMetadata_eq]
        refine reported_extend tryReadEntry_reads (fun more => tryReadEntry_keeps more) (fun _ _ _ => rfl)
          (fun _ _ => encodesEntry_positive) (by rw [work, state] : parser.work = parser.buffer.length + 2)
          (fun pos entry => ?_) more
        change (parser.consume pos).buffer.length + 2 ≤ _
        rw [length]
  | readingTensorInfo remaining =>
      by_cases none : remaining = 0
      · simp only [if_pos none, finalize_extend]
        cases finished : parser.finalize build with
        | error failure => exact ⟨fun next moved => (nomatch moved), fun other stopped => stopped⟩
        | ok last =>
            refine ⟨fun next moved => ?_, fun failure stopped => (nomatch stopped)⟩
            rw [← pure_inj moved]
            refine ⟨rfl, ?_⟩
            obtain ⟨aligned, _, rfl⟩ := finalize_ok.mp finished
            rw [work, work, state]
            exact Nat.lt_succ_self _
      · simp only [if_neg none, tryParseOneTensorInfo_eq]
        refine reported_extend tryReadTensorInfo_reads (fun more => tryReadTensorInfo_keeps more)
          (fun _ _ _ => rfl) ?_ (by rw [work, state] : parser.work = parser.buffer.length + 1)
          (fun pos entry => ?_) more
        · rintro _ used ⟨info, _, encoded⟩
          exact encodesTensor_positive encoded
        · change (parser.consume pos).buffer.length + 1 ≤ _
          rw [length]
  | readingTensorData => exact ⟨fun next moved => (nomatch moved), fun failure stopped => (nomatch stopped)⟩
  | complete => exact ⟨fun next moved => (nomatch moved), fun failure stopped => (nomatch stopped)⟩

/-- The steps of the parser shrink its work, and more input leaves them as they are. -/
theorem step_growing (build : Build) : Growing (step build) work extend := by
  constructor
  · intro parser next moved
    exact ((step_extend build parser []).1 next moved).2
  · intro parser next more moved
    exact ((step_extend build parser more).1 next moved).1
  · intro parser failure more stopped
    exact (step_extend build parser more).2 failure stopped
  · intro parser first second
    rw [extend, extend, extend, append_assoc]

end GgufStreamParser

end Pictor.Gguf
