import Pictor.Construction.Tokenizer.Tokenizer

namespace Pictor.StreamingDecoder
open Utf8 (validPrefix)

variable {tokenizer : PictorTokenizer} {decoder : StreamingDecoder}

/-- The bytes of a token at the start of a text. -/
def tokenBytes (tokenizer : PictorTokenizer) (id : UInt32) : List UInt8 := tokenizer.decodeIdInto id []

def ownBytes (tokenizer : PictorTokenizer) (ids : List UInt32) : List UInt8 :=
  ids.flatMap (tokenBytes tokenizer)

/-- The earlier path puts a space before the token, unless the token is first. -/
def Spacing (tokenizer : PictorTokenizer) (id : UInt32) : Prop :=
  tokenizer.config.byteLevelDecode = false ∧ id ∉ tokenizer.specialIds ∧
    ∃ token, tokenizer.vocab.getToken id = some token ∧ parseByteFallback token = none ∧
      token.head? = some Bpe.spacePrefix

/-- Only tokens without bytes precede a token that takes a space. -/
def SpacingFirst (tokenizer : PictorTokenizer) (ids : List UInt32) : Prop :=
  ∀ before id after, ids = before ++ id :: after → Spacing tokenizer id → ownBytes tokenizer before = []

/-- The pieces of a stream and its end are the decoded text, and the end fails exactly if decoding fails. -/
def Streams (tokenizer : PictorTokenizer) (ids : List UInt32) : Prop :=
  let pushed := (new tokenizer).pushAll ids
  (∀ text, pushed.2.finish = .ok text → tokenizer.decode ids = .ok (pushed.1 ++ text)) ∧
    ((∃ error, pushed.2.finish = .error error) ↔ ∃ error, tokenizer.decode ids = .error error)

/-- A flush moves bytes from the buffer to the output. -/
theorem flushComplete_spec (decoder : StreamingDecoder) :
    Utf8.encode (decoder.flushComplete.1.getD []) ++ decoder.flushComplete.2.pending = decoder.pending ∧
      decoder.flushComplete.2.tokenizer = decoder.tokenizer := by
  rw [flushComplete]
  split
  · exact ⟨rfl, rfl⟩
  · split
    · rename_i owned read
      rw [← Utf8.decode_eq_some.mp read]
      by_cases empty : owned = []
      · simp [empty]
      · simp [empty]
    · obtain ⟨parts, _⟩ := Utf8.validPrefix_spec decoder.pending
      dsimp only
      split
      · exact ⟨rfl, rfl⟩
      · have front := @List.take_left _ (Utf8.encode (validPrefix decoder.pending).1)
          (validPrefix decoder.pending).2
        have back := @List.drop_left _ (Utf8.encode (validPrefix decoder.pending).1)
          (validPrefix decoder.pending).2
        rw [parts] at front back
        rw [front, back, Utf8.decode_encode]
        by_cases empty : (validPrefix decoder.pending).1 = []
        · rw [empty] at parts
          simpa [empty] using parts
        · simpa [empty] using parts

theorem pushToken_spec (decoder : StreamingDecoder) (id : UInt32) :
    Utf8.encode ((decoder.pushToken id).1.getD []) ++ (decoder.pushToken id).2.pending =
        decoder.pending ++ tokenBytes decoder.tokenizer id ∧
      (decoder.pushToken id).2.tokenizer = decoder.tokenizer := by
  rw [pushToken]
  dsimp only
  split
  · rename_i silent
    rw [tokenBytes, silent, List.append_nil]
    exact ⟨rfl, rfl⟩
  · obtain ⟨moved, same⟩ := flushComplete_spec { decoder with
      totalTokens := decoder.totalTokens + 1
      totalBytes := decoder.totalBytes + (decoder.tokenizer.decodeIdInto id []).length
      pending := decoder.pending ++ decoder.tokenizer.decodeIdInto id [] }
    exact ⟨moved, same⟩

theorem pushAll_spec (decoder : StreamingDecoder) (ids : List UInt32) :
    Utf8.encode (decoder.pushAll ids).1 ++ (decoder.pushAll ids).2.pending =
      decoder.pending ++ ownBytes decoder.tokenizer ids := by
  induction ids generalizing decoder with
  | nil => exact (List.append_nil _).symm
  | cons id ids ih =>
      obtain ⟨moved, same⟩ := pushToken_spec decoder id
      have later := ih (decoder.pushToken id).2
      rw [same] at later
      rw [pushAll, Utf8.encode_append, List.append_assoc, later, ← List.append_assoc, moved, List.append_assoc]
      rfl

theorem finish_eq (decoder : StreamingDecoder) : decoder.finish =
    match Utf8.decode decoder.pending with
    | some text => .ok text
    | none => .error .incompleteUtf8 := by
  rw [finish]
  split
  · rename_i empty
    rw [empty]
    rfl
  · rfl

/-- The stream is right exactly if the bytes of the tokens and the bytes of the batch are the same text,
or both are none. -/
theorem streams_iff (tokenizer : PictorTokenizer) (ids : List UInt32) : Streams tokenizer ids ↔
    Utf8.decode (ownBytes tokenizer ids) = Utf8.decode (tokenizer.decodeToBytes ids) := by
  have moved := pushAll_spec (new tokenizer) ids
  change _ = [] ++ ownBytes tokenizer ids at moved
  rw [List.nil_append] at moved
  rw [Streams, finish_eq, PictorTokenizer.decode, ← moved, Utf8.decode_append]
  cases held : Utf8.decode ((new tokenizer).pushAll ids).2.pending with
  | none =>
      cases batch : Utf8.decode (tokenizer.decodeToBytes ids) with
      | none => simp
      | some text => simp
  | some rest =>
      cases batch : Utf8.decode (tokenizer.decodeToBytes ids) with
      | none => simp
      | some text => simp [eq_comm]

/-- A token adds its own bytes, after a space if it takes one. -/
theorem decodeIdInto_eq (tokenizer : PictorTokenizer) (id : UInt32) (bytes : List UInt8) :
    ∃ separator, tokenizer.decodeIdInto id bytes = bytes ++ separator ++ tokenBytes tokenizer id ∧
      (separator = [] ∨ separator = [0x20]) ∧ (separator = [] ↔ (Spacing tokenizer id → bytes = [])) := by
  by_cases special : id ∈ tokenizer.specialIds
  · refine ⟨[], ?_, Or.inl rfl, ?_⟩
    · simp [tokenBytes, PictorTokenizer.decodeIdInto, special]
    · simp [Spacing, special]
  · cases found : tokenizer.vocab.getToken id with
    | none =>
        refine ⟨[], ?_, Or.inl rfl, ?_⟩
        · simp [tokenBytes, PictorTokenizer.decodeIdInto, special, found]
        · simp [Spacing, found]
    | some token =>
        cases fallback : parseByteFallback token with
        | some byte =>
            refine ⟨[], ?_, Or.inl rfl, ?_⟩
            · simp [tokenBytes, PictorTokenizer.decodeIdInto, special, found, fallback]
            · simp [Spacing, found, fallback]
        | none =>
            cases level : tokenizer.config.byteLevelDecode with
            | true =>
                refine ⟨[], ?_, Or.inl rfl, ?_⟩
                · simp [tokenBytes, PictorTokenizer.decodeIdInto, special, found, fallback, level]
                · simp [Spacing, level]
            | false =>
                refine ⟨if token.head? = some Bpe.spacePrefix ∧ bytes ≠ [] then [0x20] else [], ?_, ?_, ?_⟩
                · simp only [tokenBytes, PictorTokenizer.decodeIdInto, special, found, fallback, level]
                  by_cases space : token.head? = some Bpe.spacePrefix ∧ bytes ≠ []
                  · simp [space]
                  · simp [space]
                · by_cases space : token.head? = some Bpe.spacePrefix ∧ bytes ≠ []
                  · rw [if_pos space]
                    exact Or.inr rfl
                  · rw [if_neg space]
                    exact Or.inl rfl
                · by_cases leading : token.head? = some Bpe.spacePrefix
                  · by_cases empty : bytes = []
                    · simp [empty]
                    · simp [leading, empty, Spacing, level, special, found, fallback]
                  · simp [leading, Spacing, found]

theorem decodeToBytes_concat (tokenizer : PictorTokenizer) (ids : List UInt32) (id : UInt32) :
    tokenizer.decodeToBytes (ids ++ [id]) = tokenizer.decodeIdInto id (tokenizer.decodeToBytes ids) := by
  rw [PictorTokenizer.decodeToBytes, List.foldl_append]
  rfl

theorem ownBytes_concat (tokenizer : PictorTokenizer) (ids : List UInt32) (id : UInt32) :
    ownBytes tokenizer (ids ++ [id]) = ownBytes tokenizer ids ++ tokenBytes tokenizer id := by
  simp [ownBytes]

/-- The second list is the first one with spaces put in. -/
inductive Spaced : List UInt8 → List UInt8 → Prop where
  | refl (bytes : List UInt8) : Spaced bytes bytes
  | space {bytes : List UInt8} (before after : List UInt8) :
      Spaced bytes (before ++ after) → Spaced bytes (before ++ 0x20 :: after)

variable {bytes spaced : List UInt8}

theorem Spaced.append (put : Spaced bytes spaced) (more : List UInt8) : Spaced (bytes ++ more) (spaced ++ more) := by
  induction put with
  | refl => exact .refl _
  | space before after _ ih =>
      rw [List.append_assoc] at ih
      rw [List.append_assoc, List.cons_append]
      exact .space before (after ++ more) ih

theorem Spaced.length_le (put : Spaced bytes spaced) : bytes.length ≤ spaced.length := by
  induction put with
  | refl => exact Nat.le_refl _
  | space before after _ ih =>
      rw [List.length_append] at ih
      rw [List.length_append, List.length_cons]
      omega

/-- Spaces do not repair a text that is no UTF-8. -/
theorem Spaced.decode (put : Spaced bytes spaced) (invalid : Utf8.decode bytes = none) : Utf8.decode spaced = none := by
  induction put with
  | refl => exact invalid
  | space before after _ ih =>
      cases read : Utf8.decode (before ++ 0x20 :: after) with
      | none => rfl
      | some chars =>
          obtain ⟨front, back, rfl, rfl, rfl⟩ := Utf8.encode_split (by decide) (Utf8.decode_eq_some.mp read)
          have valid := ih
          rw [← Utf8.encode_append, Utf8.decode_encode] at valid
          cases valid

theorem decodeToBytes_spaced (tokenizer : PictorTokenizer) (ids : List UInt32) :
    Spaced (ownBytes tokenizer ids) (tokenizer.decodeToBytes ids) := by
  induction ids using List.reverseRecOn with
  | nil => exact .refl _
  | append_singleton ids id ih =>
      obtain ⟨separator, added, kind, _⟩ := decodeIdInto_eq tokenizer id (tokenizer.decodeToBytes ids)
      rw [decodeToBytes_concat, ownBytes_concat, added]
      apply Spaced.append
      rcases kind with rfl | rfl
      · rw [List.append_nil]
        exact ih
      · rw [← List.append_nil (tokenizer.decodeToBytes ids)] at ih
        exact .space _ [] ih

theorem spacingFirst_concat (tokenizer : PictorTokenizer) (ids : List UInt32) (id : UInt32) :
    SpacingFirst tokenizer (ids ++ [id]) ↔
      SpacingFirst tokenizer ids ∧ (Spacing tokenizer id → ownBytes tokenizer ids = []) := by
  constructor
  · intro first
    refine ⟨fun before other after parts spacing => ?_, fun spacing => first ids id [] rfl spacing⟩
    exact first before other (after ++ [id]) (by rw [parts, List.append_assoc, List.cons_append]) spacing
  · rintro ⟨first, last⟩ before other after parts spacing
    rcases List.eq_nil_or_concat' after with rfl | ⟨after, final, rfl⟩
    · obtain ⟨rfl, same⟩ := List.append_inj' parts rfl
      cases same
      exact last spacing
    · rw [← List.cons_append, ← List.append_assoc] at parts
      exact first before other after (List.append_inj' parts rfl).1 spacing

/-- The batch puts no space exactly if each token that takes one is first. -/
theorem ownBytes_eq_iff (tokenizer : PictorTokenizer) (ids : List UInt32) :
    ownBytes tokenizer ids = tokenizer.decodeToBytes ids ↔ SpacingFirst tokenizer ids := by
  induction ids using List.reverseRecOn with
  | nil =>
      refine ⟨fun _ before id after parts => ?_, fun _ => rfl⟩
      simp at parts
  | append_singleton ids id ih =>
      obtain ⟨separator, added, kind, none⟩ := decodeIdInto_eq tokenizer id (tokenizer.decodeToBytes ids)
      have shorter := (decodeToBytes_spaced tokenizer ids).length_le
      rw [decodeToBytes_concat, ownBytes_concat, added, spacingFirst_concat, ← ih, List.append_left_inj]
      constructor
      · intro same
        rcases kind with rfl | rfl
        · rw [List.append_nil] at same
          rw [same]
          exact ⟨rfl, none.mp rfl⟩
        · have longer := congrArg List.length same
          rw [List.length_append, List.length_singleton] at longer
          omega
      · rintro ⟨same, first⟩
        rw [same] at first
        rw [same, none.mpr first, List.append_nil]

/-- The stream is right exactly if each token that takes a space comes before all other bytes, or the
bytes of the tokens are no UTF-8. -/
theorem streams_iff_spacingFirst (tokenizer : PictorTokenizer) (ids : List UInt32) : Streams tokenizer ids ↔
      SpacingFirst tokenizer ids ∨ Utf8.decode (ownBytes tokenizer ids) = none := by
  rw [streams_iff]
  constructor
  · intro same
    cases read : Utf8.decode (ownBytes tokenizer ids) with
    | none => exact Or.inr rfl
    | some text =>
        rw [read] at same
        left
        apply (ownBytes_eq_iff tokenizer ids).mp
        rw [← Utf8.decode_eq_some.mp read, ← Utf8.decode_eq_some.mp same.symm]
  · rintro (first | invalid)
    · rw [(ownBytes_eq_iff tokenizer ids).mpr first]
    · rw [invalid, (decodeToBytes_spaced tokenizer ids).decode invalid]

/-- A tokenizer with one word that takes a space. -/
def twoWords : PictorTokenizer :=
  .new ((Vocabulary.new.insert ['a'] 10).insert [Bpe.spacePrefix, 'b'] 11) .new .default

/-- The stream loses the space between the words. -/
theorem twoWords_stream : ((new twoWords).pushAll [10, 11]).1 = ['a', 'b'] ∧
      ((new twoWords).pushAll [10, 11]).2.finish = .ok [] ∧
      twoWords.decode [10, 11] = .ok ['a', ' ', 'b'] ∧ ¬Streams twoWords [10, 11] := by
  have pieces : ((new twoWords).pushAll [10, 11]).1 = ['a', 'b'] := by decide
  have final : ((new twoWords).pushAll [10, 11]).2.finish = .ok [] := by decide
  have batch : twoWords.decode [10, 11] = .ok ['a', ' ', 'b'] := by decide
  refine ⟨pieces, final, batch, ?_⟩
  intro streams
  have same := streams.1 [] final
  rw [batch, pieces] at same
  cases same

end Pictor.StreamingDecoder
