import Pictor.Library.JsonWriting
import Pictor.Library.LineText

namespace Pictor.Streaming

/-- The bytes that wait for more, and whether a text waits for white space. -/
structure TokenStream where
  buffer : List UInt8
  flushAtWhitespace : Bool
  deriving DecidableEq

namespace TokenStream

def new : TokenStream := ⟨[], false⟩

/-- The text that is complete now. -/
def pushTokenBytes (stream : TokenStream) (bytes : List UInt8) : Option (List Char) × TokenStream :=
  let buffer := stream.buffer ++ bytes
  match Utf8.fromUtf8 buffer with
  | .ok text =>
      if stream.flushAtWhitespace then
        if text.any isWhitespace then (some text, { stream with buffer := [] })
        else (none, { stream with buffer := buffer })
      else (some text, { stream with buffer := [] })
  | .error validUpTo =>
      if validUpTo > 0 then
        let text := (Utf8.fromUtf8 (buffer.take validUpTo)).toOption.getD []
        (some text, { stream with buffer := buffer.drop validUpTo })
      else (none, { stream with buffer := buffer })

/-- The rest of the bytes, with replacements for what is no text. -/
def flush (stream : TokenStream) : List Char × TokenStream := (Utf8.lossy stream.buffer, { stream with buffer := [] })

/-- The texts of the pushes in their order, and the stream behind them. -/
def pushAll : TokenStream → List (List UInt8) → List Char × TokenStream
  | stream, [] => ([], stream)
  | stream, bytes :: pushes =>
      let pushed := stream.pushTokenBytes bytes
      let later := pushAll pushed.2 pushes
      (pushed.1.getD [] ++ later.1, later.2)

end TokenStream

/-- The content is missing in the last chunk. -/
structure StreamDelta where
  role : Option (List Char)
  content : Option (List Char)

structure StreamChoice where
  index : Nat
  delta : StreamDelta
  finishReason : Option (List Char)
  logprobs : Option (Json Nat)

structure StreamChunk where
  id : List Char
  object : List Char
  created : UInt64
  model : List Char
  choices : List StreamChoice

/-- A member that is skipped where there is no value. -/
def skipNone (name : String) : Option (Json Nat) → List (List Char × Json Nat)
  | some value => [(name.toList, value)]
  | none => []

def StreamDelta.toValue (delta : StreamDelta) : Json Nat :=
  .object (skipNone "role" (delta.role.map .string) ++ skipNone "content" (delta.content.map .string))

def StreamChoice.toValue (choice : StreamChoice) : Json Nat :=
  .object ([("index".toList, .number choice.index), ("delta".toList, choice.delta.toValue)] ++
    (skipNone "finish_reason" (choice.finishReason.map .string) ++ skipNone "logprobs" choice.logprobs))

def StreamChunk.toValue (chunk : StreamChunk) : Json Nat :=
  .object [("id".toList, .string chunk.id), ("object".toList, .string chunk.object),
    ("created".toList, .number chunk.created.toNat), ("model".toList, .string chunk.model),
    ("choices".toList, .array (chunk.choices.map StreamChoice.toValue))]

/-- The serialiser of the server and the numbers that readers know. A value is written without control characters, and
its text denotes it. -/
structure SerdeJson where
  number : List Char → Nat → Prop
  numbers : NumberTokens number
  toString : Json Nat → Except (List Char) (List Char)
  written : ∀ value, ∃ text, toString value = .ok text ∧ Visible text ∧ JsonDenotes number text value.settled

structure SseFormatter where
  includeUsage : Bool
  modelName : List Char

namespace SseFormatter

def formatEvent (data : List Char) : List Char := "data: ".toList ++ (data ++ ['\n', '\n'])

def replace (pattern : Char) (replacement text : List Char) : List Char :=
  text.flatMap fun c => if c = pattern then replacement else [c]

/-- The escapes are written by hand. -/
def errorEvent (message : List Char) : List Char :=
  let escaped := replace '"' ['\\', '"'] (replace '\\' ['\\', '\\'] message)
  formatEvent ("\x7b\"error\":\x7b\"message\":\"".toList ++ (escaped ++ "\"\x7d\x7d".toList))

variable (serde : SerdeJson) (nowSecs : UInt64) (formatter : SseFormatter) (requestId : List Char)

def chunkText (chunk : StreamChunk) : List Char :=
  match serde.toString chunk.toValue with
  | .ok text => text
  | .error _ => "\x7b\x7d".toList

def firstChunk : List Char :=
  formatEvent (chunkText serde
    { id := requestId
      object := "chat.completion.chunk".toList
      created := nowSecs
      model := formatter.modelName
      choices := [⟨0, ⟨some "assistant".toList, some []⟩, none, none⟩] })

def tokenChunk (tokenText : List Char) : List Char :=
  formatEvent (chunkText serde
    { id := requestId
      object := "chat.completion.chunk".toList
      created := nowSecs
      model := formatter.modelName
      choices := [⟨0, ⟨none, some tokenText⟩, none, none⟩] })

def finalChunk (finishReason : List Char) : List Char :=
  formatEvent (chunkText serde
    { id := requestId
      object := "chat.completion.chunk".toList
      created := nowSecs
      model := formatter.modelName
      choices := [⟨0, ⟨none, none⟩, some finishReason, none⟩] })

end SseFormatter

end Pictor.Streaming

namespace Pictor

inductive TruncationStrategy where
  | truncateLeft
  | truncateRight
  | slidingWindow
  | summarize
  deriving DecidableEq

structure ContextError where
  message : String
  deriving DecidableEq

structure ContextWindow where
  maxTokens : Nat
  systemTokens : List UInt32
  conversation : List UInt32
  strategy : TruncationStrategy
  deriving DecidableEq

namespace ContextWindow

def new (maxTokens : Nat) (strategy : TruncationStrategy) : ContextWindow := ⟨maxTokens, [], [], strategy⟩

def capacityForConv (window : ContextWindow) : Nat := window.maxTokens - window.systemTokens.length

/-- The result is the number of tokens that are removed. -/
def truncateToFit (window : ContextWindow) : Nat × ContextWindow :=
  if window.conversation.length ≤ window.capacityForConv then (0, window)
  else
    let excess := window.conversation.length - window.capacityForConv
    match window.strategy with
    | .truncateLeft | .slidingWindow | .summarize =>
        (excess, { window with conversation := window.conversation.drop excess })
    | .truncateRight =>
        (excess, { window with conversation := window.conversation.take (window.conversation.length - excess) })

def setSystemPrompt (window : ContextWindow) (tokens : List UInt32) : Except ContextError Unit × ContextWindow :=
  if tokens.length > window.maxTokens then
    (.error ⟨"system prompt (" ++ toString tokens.length ++ " tokens) exceeds max_tokens (" ++
      toString window.maxTokens ++ ")"⟩, window)
  else (.ok (), { window with systemTokens := tokens }.truncateToFit.2)

def append (window : ContextWindow) (tokens : List UInt32) : Nat × ContextWindow :=
  let (removed, window) := { window with conversation := window.conversation ++ tokens }.truncateToFit
  (tokens.length - removed, window)

def clearConversation (window : ContextWindow) : ContextWindow := { window with conversation := [] }

/-- The calls that change a window. -/
inductive Call where
  | setSystemPrompt (tokens : List UInt32)
  | append (tokens : List UInt32)
  | truncateToFit
  | clearConversation

def perform (window : ContextWindow) : Call → ContextWindow
  | .setSystemPrompt tokens => (window.setSystemPrompt tokens).2
  | .append tokens => (window.append tokens).2
  | .truncateToFit => window.truncateToFit.2
  | .clearConversation => window.clearConversation

end ContextWindow

end Pictor
