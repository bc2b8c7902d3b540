import Pictor.Construction.Grammar.JsonSchema
import Pictor.Library.JsonUnique
import Pictor.Library.LineText
import Pictor.Library.TextSlice

namespace Pictor.Tools

structure ToolDefinition where
  name : List Char
  parameters : Value

structure ToolCall where
  id : List Char
  toolType : List Char
  name : List Char
  arguments : List Char

inductive ToolCallError where
  | noToolCallFound
  | unknownTool (name : List Char)
  | malformedArguments (reason : List Char)
  | grammarCompileError (reason : List Char)
  | emptyToolList

/-- Arrays and objects of a text that is read are nested at most this deep. -/
def readDepth : Nat := 127

/-- The reader and the writer of JSON values. A text is read to a value exactly when it denotes the value. -/
structure SerdeJson where
  number : List Char → SerdeNumber → Prop
  numbers : NumberTokens number
  fromStr : List Char → Except (List Char) Value
  toString : Value → List Char
  fromStr_iff : ∀ text value,
    fromStr text = .ok value ↔ JsonReads number readDepth (.entry false) text [] [([], value)]

def startTag : List Char := "<tool_call>".toList

def endTag : List Char := "</tool_call>".toList

section Parser

variable (serde : SerdeJson) (callId : List Char)

/-- The tool call that a JSON value holds. -/
def callOfValue (value : Value) : Option ToolCall := do
  let name ← (value.get "name").bind Value.asStr
  let arguments := match value.get "arguments" with
    | some args => serde.toString args
    | none => "\x7b\x7d".toList
  return ⟨callId, "function".toList, name, arguments⟩

def parseToolCall (text : List Char) : Option ToolCall := do
  let (_, afterStart) ← TextSearch.split startTag text
  let (inner, _) ← TextSearch.split endTag afterStart
  let value ← (serde.fromStr (LineText.trim inner)).toOption
  callOfValue serde callId value

local instance lawfulName : LawfulBEq (List Char) := List.instLawfulBEq

def selectTool (output : List Char) (tools : List ToolDefinition) : Except ToolCallError ToolCall :=
  match parseToolCall serde callId output with
  | none => .error .noToolCallFound
  | some toolCall =>
      if tools ≠ [] ∧ toolCall.name ∉ tools.map ToolDefinition.name then .error (.unknownTool toolCall.name)
      else
        match serde.fromStr toolCall.arguments with
        | .error reason => .error (.malformedArguments reason)
        | .ok _ => .ok toolCall

end Parser

def nonTerminalId : Symbol → Option NonTerminalId
  | .terminal _ => none
  | .nonTerminal id => some id

/-- The identifiers that the rules of a grammar mention. -/
def ruleIds (grammar : Grammar) : List NonTerminalId :=
  grammar.rules.flatMap fun rule => rule.lhs :: rule.rhs.filterMap nonTerminalId

def argNtCount (grammar : Grammar) : Nat :=
  match (ruleIds grammar).max? with
  | some largest => largest + 1
  | none => 0

def shiftSymbol (offset : Nat) : Symbol → Symbol
  | .terminal bytes => .terminal bytes
  | .nonTerminal id => .nonTerminal (id + offset)

def shiftRule (offset : Nat) (rule : Rule) : Rule := ⟨rule.lhs + offset, rule.rhs.map (shiftSymbol offset)⟩

/-- The text in front of the arguments. The name stands in it as it is. -/
def callPrefix (name : List Char) : List Char :=
  startTag ++ ("\x7b\"name\":\"".toList ++ (name ++ "\",\"arguments\":".toList))

def callSuffix : List Char := '}' :: endTag

def rootRule (tool : ToolDefinition) (argsStart : NonTerminalId) : Rule :=
  ⟨0, [.terminal (Utf8.encode (callPrefix tool.name)), .nonTerminal argsStart,
    .terminal (Utf8.encode callSuffix)]⟩

/-- One tool takes the next identifiers for its grammar and adds its rules. -/
def mergeTool (toolIdx nextNt : Nat) (merged : Grammar) (tool : ToolDefinition) (argGrammar : Grammar) : Grammar :=
  let allocated := (List.range (argNtCount argGrammar)).foldl
    (fun grammar ntJ => (grammar.allocNt ("t" ++ toString toolIdx ++ "_nt" ++ toString ntJ)).2) merged
  let copied := argGrammar.rules.foldl (fun grammar rule => grammar.addRule (shiftRule nextNt rule)) allocated
  copied.addRule (rootRule tool (argGrammar.start + nextNt))

def mergeLoop : Nat → Nat → Grammar → List (ToolDefinition × Grammar) → Grammar
  | _, _, merged, [] => merged
  | toolIdx, nextNt, merged, (tool, argGrammar) :: rest =>
      mergeLoop (toolIdx + 1) (nextNt + argNtCount argGrammar) (mergeTool toolIdx nextNt merged tool argGrammar) rest

def mergeToolGrammars (tools : List ToolDefinition) (argsGrammars : List Grammar) : Grammar :=
  mergeLoop 0 1 ((Grammar.new 0).allocNt "tool_call_root").2 (tools.zip argsGrammars)

section Constraint

variable (order : HashOrder (List Char)) (writer : LiteralWriter)

/-- The grammars of the parameters of all tools. -/
def argsGrammars (tools : List ToolDefinition) : Except ToolCallError (List Grammar) :=
  tools.mapM fun tool =>
    match compileJsonSchema order writer tool.parameters with
    | .error reason => .error (.grammarCompileError reason.display)
    | .ok grammar => .ok grammar

def buildToolConstraint (tools : List ToolDefinition) : Except ToolCallError Grammar := do
  if tools = [] then .error .emptyToolList
  else
    let grammars ← argsGrammars order writer tools
    return mergeToolGrammars tools grammars

end Constraint

end Pictor.Tools
