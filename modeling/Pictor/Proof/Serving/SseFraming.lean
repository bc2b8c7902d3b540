import Pictor.Construction.Serving.Streaming

namespace Pictor.Streaming.TokenStream
open Utf8 List
open String (utf8EncodeChar)

/-- The stream before the first push. -/
def start (flushAtWhitespace : Bool) : TokenStream := { new with flushAtWhitespace := flushAtWhitespace }

/-- The texts do not depend on the pushes, and a stream that waits for no white space holds back at most the start
of one character. -/
structure DecodesPushes (flushAtWhitespace : Bool) (pushes : List (List UInt8)) : Prop where
  texts : ((start flushAtWhitespace).pushAll pushes).1 ++ ((start flushAtWhitespace).pushAll pushes).2.flush.1 =
    lossy pushes.flatten
  heldBack : flushAtWhitespace = false → ∀ before, before <+: pushes →
    BeginsChar ((start flushAtWhitespace).pushAll before).2.buffer ∧
      ((start flushAtWhitespace).pushAll before).2.buffer.length ≤ 3

variable {stream : TokenStream} {bytes rest : List UInt8} {pushes : List (List UInt8)} {text : List Char}

/-- What some pushes leave of the bytes in front of them and of their own. -/
structure Pushed (stream : TokenStream) (bytes : List UInt8) (text : List Char) (after : TokenStream) : Prop where
  kept : encode text ++ after.buffer = stream.buffer ++ bytes
  flag : after.flushAtWhitespace = stream.flushAtWhitespace
  stuck : stream.flushAtWhitespace = false → decodeChar? after.buffer = none

/-- A push splits its bytes at the first failure. -/
theorem pushTokenBytes_eq (parts : stream.buffer ++ bytes = encode text ++ rest) (stuck : decodeChar? rest = none) :
    stream.pushTokenBytes bytes = if rest = [] then
        if stream.flushAtWhitespace = true ∧ text.any isWhitespace = false then
          (none, { stream with buffer := encode text })
        else (some text, { stream with buffer := [] })
      else if text = [] then (none, { stream with buffer := rest })
      else (some text, { stream with buffer := rest }) := by
  rw [pushTokenBytes, parts, fromUtf8_append text stuck]
  by_cases complete : rest = []
  · subst complete
    simp only [if_true, append_nil]
    cases stream.flushAtWhitespace with
    | false => simp
    | true => cases text.any isWhitespace <;> simp
  · rw [if_neg complete, if_neg complete]
    cases text with
    | nil => rfl
    | cons char text =>
        have some : size (char :: text) > 0 := by
          have positive := char.utf8Size_pos
          rw [size_cons]
          omega
        simp only [if_pos some, if_neg (cons_ne_nil char text)]
        rw [size, take_left, drop_left, fromUtf8_encode]
        rfl

theorem pushed_once (stream : TokenStream) (bytes : List UInt8) :
    Pushed stream bytes ((stream.pushTokenBytes bytes).1.getD []) (stream.pushTokenBytes bytes).2 := by
  obtain ⟨text, rest, parts, stuck⟩ : ∃ text rest, stream.buffer ++ bytes = encode text ++ rest ∧
      decodeChar? rest = none := ⟨_, _, (validPrefix_spec _).1.symm, (validPrefix_spec _).2⟩
  rw [pushTokenBytes_eq parts stuck]
  by_cases complete : rest = []
  · subst complete
    rw [if_pos rfl]
    split
    · rename_i waits
      exact ⟨parts.symm ▸ (append_nil _).symm, rfl, fun off => absurd (waits.1.symm.trans off) (by decide)⟩
    · exact ⟨parts.symm, rfl, fun _ => stuck⟩
  · rw [if_neg complete]
    split
    · rename_i empty
      subst empty
      exact ⟨parts.symm, rfl, fun _ => stuck⟩
    · exact ⟨parts.symm, rfl, fun _ => stuck⟩

/-- All pushes together keep what one push keeps. -/
theorem pushed_all (stuck : stream.flushAtWhitespace = false → decodeChar? stream.buffer = none) :
    Pushed stream pushes.flatten (stream.pushAll pushes).1 (stream.pushAll pushes).2 := by
  induction pushes generalizing stream with
  | nil => exact ⟨(append_nil _).symm, rfl, stuck⟩
  | cons bytes pushes ih =>
      have first := pushed_once stream bytes
      have later := ih fun off => first.stuck (first.flag ▸ off)
      refine ⟨?_, later.flag.trans first.flag, fun off => later.stuck (first.flag.trans off)⟩
      rw [pushAll, encode_append, append_assoc, later.kept, ← append_assoc, first.kept, append_assoc,
        flatten_cons]

theorem pushed_start (flushAtWhitespace : Bool) (pushes : List (List UInt8)) :
    Pushed (start flushAtWhitespace) pushes.flatten ((start flushAtWhitespace).pushAll pushes).1
      ((start flushAtWhitespace).pushAll pushes).2 :=
  pushed_all fun _ => show decodeChar? [] = none by decide

/-- The bytes that are held back begin a character exactly when all bytes so far begin a text. -/
theorem heldBack_iff (pushes : List (List UInt8)) :
    BeginsChar ((start false).pushAll pushes).2.buffer ↔ ∃ text, pushes.flatten <+: encode text := by
  obtain ⟨kept, _, stuck⟩ := pushed_start false pushes
  have kept : encode ((start false).pushAll pushes).1 ++ ((start false).pushAll pushes).2.buffer = pushes.flatten := kept
  rw [beginsChar_iff (stuck rfl), ← kept]
  constructor
  · rintro ⟨text, more, parts⟩
    exact ⟨((start false).pushAll pushes).1 ++ text, more, by rw [encode_append, ← parts, append_assoc]⟩
  · rintro ⟨text, more, parts⟩
    rw [append_assoc] at parts
    obtain ⟨back, _, same⟩ := encode_behind parts.symm
    exact ⟨back, more, same.symm⟩

/-- Nothing but the start of a character is held back exactly when the bytes begin a text or a text waits for white
space. -/
theorem decodesPushes_iff (flushAtWhitespace : Bool) (pushes : List (List UInt8)) :
    DecodesPushes flushAtWhitespace pushes ↔ flushAtWhitespace = true ∨ ∃ text, pushes.flatten <+: encode text := by
  have texts : ((start flushAtWhitespace).pushAll pushes).1 ++
      ((start flushAtWhitespace).pushAll pushes).2.flush.1 = lossy pushes.flatten := by
    have kept := (pushed_start flushAtWhitespace pushes).kept
    have kept : _ = pushes.flatten := kept
    rw [← kept, lossy_append, flush]
  cases flushAtWhitespace with
  | true => exact ⟨fun _ => Or.inl rfl, fun _ => ⟨texts, fun off => absurd off (by decide)⟩⟩
  | false =>
      constructor
      · intro decodes
        exact Or.inr ((heldBack_iff pushes).mp (decodes.heldBack rfl pushes prefix_rfl).1)
      · rintro (wrong | ⟨text, begins⟩)
        · cases wrong
        · refine ⟨texts, fun _ before part => ?_⟩
          have earlier : before.flatten <+: pushes.flatten := by
            obtain ⟨after, rfl⟩ := part
            exact ⟨after.flatten, flatten_append.symm⟩
          have start := (heldBack_iff before).mpr ⟨text, earlier.trans begins⟩
          exact ⟨start, start.length_le⟩

/-- A byte that is in no text is held back until the end. -/
theorem decodesPushes_broken : ¬DecodesPushes false [[0xFF]] := by
  intro decodes
  obtain ⟨⟨char, missing, _, parts⟩, _⟩ := decodes.heldBack rfl [[0xFF]] prefix_rfl
  have buffer : ((start false).pushAll [[0xFF]]).2.buffer = [0xFF] := by decide
  rw [buffer] at parts
  have some : 0 < (utf8EncodeChar char).length := length_pos_iff.mpr (utf8EncodeChar_ne_nil char)
  have first : ((utf8EncodeChar char)[0]).IsUTF8FirstByte := UInt8.isUTF8FirstByte_getElem_utf8EncodeChar.mpr rfl
  have same : (utf8EncodeChar char)[0] = 0xFF := by simp only [parts, singleton_append, getElem_cons_zero]
  rw [same] at first
  exact absurd first (by decide)

end Pictor.Streaming.TokenStream

namespace Pictor.Streaming.SseFormatter
open LineText List

/-- The output is one event with one line of data. -/
def OneEvent (output payload : List Char) : Prop :=
  streamLines [] output = (["data: ".toList ++ payload, []], [])

/-- The output is one event whose payload denotes a value with these texts at their places. -/
def Carries (serde : SerdeJson) (output : List Char) (texts : List (List Json.Step × List Char)) : Prop :=
  ∃ payload value, OneEvent output payload ∧ JsonDenotes serde.number payload value ∧
    ∀ text ∈ texts, value.follow text.1 = some (.string text.2)

/-- The place of a member of the first choice. -/
def inChoice (path : List Json.Step) : List Json.Step := .key "choices".toList :: .index 0 :: path

/-- The chunks and the error of a response are events that carry their texts. -/
structure WellFramed (serde : SerdeJson) (nowSecs : UInt64) (formatter : SseFormatter)
    (requestId tokenText finishReason message : List Char) : Prop where
  first : Carries serde (firstChunk serde nowSecs formatter requestId)
    [([.key "id".toList], requestId), ([.key "model".toList], formatter.modelName)]
  token : Carries serde (tokenChunk serde nowSecs formatter requestId tokenText)
    [([.key "id".toList], requestId), ([.key "model".toList], formatter.modelName),
      (inChoice [.key "delta".toList, .key "content".toList], tokenText)]
  final : Carries serde (finalChunk serde nowSecs formatter requestId finishReason)
    [([.key "id".toList], requestId), ([.key "model".toList], formatter.modelName),
      (inChoice [.key "finish_reason".toList], finishReason)]
  error : Carries serde (errorEvent message) [([.key "error".toList, .key "message".toList], message)]

variable {serde : SerdeJson} {data payload message escaped body text rest : List Char}

theorem unbroken_of_visible (visible : Visible data) : Unbroken data := by
  intro c member
  have low := visible c member
  constructor <;>
    · rintro rfl
      exact absurd low (by decide)

theorem unbroken_append {front back : List Char} : Unbroken (front ++ back) ↔ Unbroken front ∧ Unbroken back :=
  forall_mem_append

/-- Data is one event exactly when it has no line end. -/
theorem oneEvent_formatEvent (ends : data.getLast? ≠ some '\r') :
    OneEvent (formatEvent data) payload ↔ payload = data ∧ Unbroken data := by
  have label : Unbroken "data: ".toList := unbroken_of_visible (by decide)
  unfold OneEvent formatEvent
  generalize "data: ".toList = mark at label ⊢
  have lines : streamLines [] (mark ++ (data ++ ['\n', '\n'])) =
      ((streamLines [] (mark ++ data)).1 ++ [(streamLines [] (mark ++ data)).2, []], []) := by
    rw [← append_assoc]
    apply streamLines_append [] (mark ++ data) ['\n']
    cases data with
    | nil =>
        rw [append_nil]
        exact fun last => (label _ (mem_of_getLast? last)).2 rfl
    | cons c data => rwa [getLast?_append_of_ne_nil _ (cons_ne_nil c data)]
  rw [lines]
  constructor
  · intro same
    have parts := (Prod.mk.inj same).1
    obtain ⟨none, line⟩ := append_inj' (show _ = [] ++ [mark ++ payload, []] from parts) rfl
    have unbroken := unbroken_of_streamLines [] none
    rw [streamLines_unbroken [] unbroken, nil_append] at line
    exact ⟨(append_cancel_left (List.cons.inj line).1).symm, (unbroken_append.mp unbroken).2⟩
  · rintro ⟨rfl, unbroken⟩
    rw [streamLines_unbroken _ (unbroken_append.mpr ⟨label, unbroken⟩)]
    rfl

/-- An event of a chunk carries every text that the value of the chunk has. -/
theorem carries_chunk (chunk : StreamChunk) {texts : List (List Json.Step × List Char)}
    (held : ∀ text ∈ texts, chunk.toValue.settled.follow text.1 = some (.string text.2)) :
    Carries serde (formatEvent (chunkText serde chunk)) texts := by
  obtain ⟨written, same, visible, denotes⟩ := serde.written chunk.toValue
  have unbroken := unbroken_of_visible visible
  rw [chunkText, same]
  refine ⟨written, _, (oneEvent_formatEvent ?_).mpr ⟨rfl, unbroken⟩, denotes, held⟩
  exact fun last => (unbroken _ (mem_of_getLast? last)).2 rfl

/-- The escapes of one character. -/
def handEscape (c : Char) : List Char := if c = '\\' then ['\\', '\\'] else if c = '"' then ['\\', '"'] else [c]

theorem replace_twice (message : List Char) :
    replace '"' ['\\', '"'] (replace '\\' ['\\', '\\'] message) = message.flatMap handEscape := by
  rw [replace, replace, flatMap_assoc]
  congr 1
  funext c
  by_cases slash : c = '\\'
  · subst slash
    rfl
  · rw [if_neg slash, handEscape, if_neg slash, flatMap_singleton]

/-- A message without control characters is denoted by its escaped text. -/
theorem handEscape_denotes (visible : Visible message) : JsonString (message.flatMap handEscape) message := by
  induction message with
  | nil => exact .nil
  | cons c message ih =>
      obtain ⟨low, later⟩ := forall_mem_cons.mp visible
      rw [flatMap_cons, handEscape]
      by_cases slash : c = '\\'
      · subst slash
        exact .escape (by decide) (ih later)
      · by_cases quote : c = '"'
        · subst quote
          exact .escape (by decide) (ih later)
        · rw [if_neg slash, if_neg quote]
          exact .plain low quote slash (ih later)

theorem handEscape_visible (visible : Visible message) : Visible (message.flatMap handEscape) := by
  intro c member
  obtain ⟨c', inside, written⟩ := mem_flatMap.mp member
  rw [handEscape] at written
  split at written
  · exact (show Visible ['\\', '\\'] by decide) c written
  · split at written
    · exact (show Visible ['\\', '"'] by decide) c written
    · rw [mem_singleton.mp written]
      exact visible c' inside

/-- A literal goes on behind a short escape. -/
theorem behind_escape {mark : Char} (known : JsonString body text) (short : mark ≠ 'u')
    (same : body ++ '"' :: rest = '\\' :: mark :: escaped) :
    ∃ body' text', JsonString body' text' ∧ body' ++ '"' :: rest = escaped := by
  cases known with
  | nil => exact absurd (List.cons.inj same).1 (by decide)
  | plain _ _ slash _ => exact absurd (List.cons.inj same).1 slash
  | escape _ later => exact ⟨_, _, later, (List.cons.inj (List.cons.inj same).2).2⟩
  | unicode _ _ _ => exact absurd (List.cons.inj (List.cons.inj same).2).1.symm short
  | pair _ _ _ _ _ => exact absurd (List.cons.inj (List.cons.inj same).2).1.symm short

/-- A literal that begins with the escaped message has no control character in the message. -/
theorem visible_of_literal {tail : List Char} (known : JsonString body text)
    (same : body ++ '"' :: rest = message.flatMap handEscape ++ '"' :: tail) : Visible message := by
  induction message generalizing body text with
  | nil => exact .nil
  | cons c message ih =>
      rw [flatMap_cons, handEscape, append_assoc] at same
      by_cases slash : c = '\\'
      · subst slash
        obtain ⟨_, _, known', same'⟩ := behind_escape known (by decide) same
        exact .cons (by decide) (ih known' same')
      · by_cases quote : c = '"'
        · subst quote
          obtain ⟨_, _, known', same'⟩ := behind_escape known (by decide) same
          exact .cons (by decide) (ih known' same')
        · rw [if_neg slash, if_neg quote, singleton_append] at same
          cases known with
          | nil => exact absurd (List.cons.inj same).1.symm quote
          | plain low _ _ later =>
              obtain ⟨rfl, same'⟩ := List.cons.inj same
              exact .cons low (ih later same')
          | escape _ _ => exact absurd (List.cons.inj same).1.symm slash
          | unicode _ _ _ => exact absurd (List.cons.inj same).1.symm slash
          | pair _ _ _ _ _ => exact absurd (List.cons.inj same).1.symm slash

/-- The value of an error. -/
def errorText (message : List Char) : List Char :=
  '{' :: '"' :: ("error".toList ++ '"' :: ':' :: '{' :: '"' :: ("message".toList ++ '"' :: ':' :: '"' ::
    (message.flatMap handEscape ++ ['"', '}', '}'])))

theorem errorEvent_eq (message : List Char) : errorEvent message = formatEvent (errorText message) := by
  simp only [errorEvent, replace_twice]
  rfl

theorem errorText_ends (message : List Char) : (errorText message).getLast? ≠ some '\r' := by
  have parts : errorText message = ('{' :: '"' :: ("error".toList ++ '"' :: ':' :: '{' :: '"' ::
      ("message".toList ++ '"' :: ':' :: '"' :: (message.flatMap handEscape ++ ['"', '}'])))) ++ ['}'] := by
    simp [errorText]
  rw [parts, getLast?_concat]
  decide

/-- The event of an error carries the message exactly when it has no control character. -/
theorem carries_error (message : List Char) :
    Carries serde (errorEvent message) [([.key "error".toList, .key "message".toList], message)] ↔ Visible message := by
  rw [errorEvent_eq]
  constructor
  · rintro ⟨payload, value, event, ⟨depth, reads⟩, _⟩
    obtain ⟨rfl, _⟩ := (oneEvent_formatEvent (errorText_ends message)).mp event
    cases reads with
    | element before outer _ =>
        rw [before.solid (by decide)] at outer
        obtain ⟨_, _, _, inner⟩ := member_opened serde.numbers (by decide) outer (by simp; decide)
        obtain ⟨_, _, _, string⟩ := member_opened serde.numbers (by decide) inner (by simp; decide)
        obtain ⟨body, text, known, same, _⟩ := string.of_quote serde.numbers
        exact visible_of_literal known same.symm
  · intro visible
    have outer : JsonString "error".toList "error".toList := PlainText.denotes (by decide)
    have inner : JsonString "message".toList "message".toList := PlainText.denotes (by decide)
    have denotes : JsonReads serde.number 2 (.entry false) (errorText message) []
        [([], .object (JsonMap.ofMembers
          [("error".toList, .object (JsonMap.ofMembers [("message".toList, .string message)]))]))] :=
      .element (.done _) (.object (.last true (.pair (.done _) outer (.done _)
        (.element (.done _) (.object (.last true (.pair (.done _) inner (.done _)
          (.element (.done _) (.string 0 _ (handEscape_denotes visible)) (.done _))))) (.done _))))) (.done _)
    refine ⟨errorText message, _, ?_, ⟨2, denotes⟩, ?_⟩
    · refine (oneEvent_formatEvent (errorText_ends message)).mpr ⟨rfl, unbroken_of_visible ?_⟩
      exact .append (show Visible "\x7b\"error\":\x7b\"message\":\"".toList by decide)
        (.append (handEscape_visible visible) (by decide))
    · intro text member
      rw [mem_singleton.mp member]
      rfl

/-- The events are framed well exactly when the message of the error has no control character. -/
theorem wellFramed_iff (serde : SerdeJson) (nowSecs : UInt64) (formatter : SseFormatter)
    (requestId tokenText finishReason message : List Char) :
    WellFramed serde nowSecs formatter requestId tokenText finishReason message ↔ ∀ c ∈ message, ' ' ≤ c := by
  constructor
  · exact fun framed => (carries_error message).mp framed.error
  · intro visible
    refine ⟨carries_chunk _ ?_, carries_chunk _ ?_, carries_chunk _ ?_, (carries_error message).mpr visible⟩
    · simp only [forall_mem_cons]
      exact ⟨rfl, rfl, forall_mem_nil _⟩
    · simp only [forall_mem_cons]
      exact ⟨rfl, rfl, rfl, forall_mem_nil _⟩
    · simp only [forall_mem_cons]
      exact ⟨rfl, rfl, rfl, forall_mem_nil _⟩

theorem naturals_read (value : Nat) : readsNat (Nat.toDigits 10 value) value := rfl

/-- The serialiser that writes no spaces. -/
def compactSerde : SerdeJson where
  number := readsNat
  numbers := readsNat_tokens
  toString value := .ok (value.compact (Nat.toDigits 10))
  written value := ⟨_, rfl, compact_visible toDigits_visible value, compact_denotes naturals_read value⟩

/-- A message of two lines breaks the event. -/
theorem wellFramed_twoLines :
    ¬WellFramed compactSerde 0 ⟨false, "bonsai".toList⟩ "r".toList "t".toList "stop".toList "a\nb".toList := by
  intro framed
  have visible := (carries_error _).mp framed.error
  exact absurd (visible '\n' (by decide)) (by decide)

end Pictor.Streaming.SseFormatter
