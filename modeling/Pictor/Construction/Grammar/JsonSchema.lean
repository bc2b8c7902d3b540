import Pictor.Construction.Grammar.Ast
import Pictor.Library.HashOrder
import Pictor.Library.JsonValue
import Pictor.Library.Utf8

namespace Pictor

/-- A number keeps an integer of 64 bits or the bits of a float. -/
inductive SerdeNumber where
  | posInt (value : UInt64)
  | negInt (value : Int64)
  | float (bits : UInt64)

abbrev Value := Json SerdeNumber

namespace Value

def get (value : Value) (key : String) : Option Value :=
  match value with
  | .object members => members.lookup key.toList
  | _ => none

def asObject : Value → Option (JsonMap SerdeNumber)
  | .object members => some members
  | _ => none

def asArray : Value → Option (List Value)
  | .array items => some items
  | _ => none

def asStr : Value → Option (List Char)
  | .string text => some text
  | _ => none

def asBool : Value → Option Bool
  | .bool value => some value
  | _ => none

end Value

inductive JsonSchemaCompileError where
  | invalidSchema (message : String)
  | unsupportedKeyword (keyword : String)
  | danglingRef (ref : List Char)
  | depthExceeded (limit : Nat)
  deriving DecidableEq

/-- The text of an error. -/
def JsonSchemaCompileError.display : JsonSchemaCompileError → List Char
  | .invalidSchema message => ("invalid JSON schema: " ++ message).toList
  | .unsupportedKeyword keyword => ("unsupported JSON schema keyword: " ++ keyword).toList
  | .danglingRef ref => "unresolvable $ref: ".toList ++ ref
  | .depthExceeded limit => ("schema nesting depth exceeded limit of " ++ toString limit).toList

/-- The writer of JSON gives each text a literal that denotes it. -/
structure LiteralWriter where
  body : List Char → List Char
  denotes : ∀ text, JsonString (body text) text

def LiteralWriter.literal (writer : LiteralWriter) (text : List Char) : List Char :=
  '"' :: (writer.body text ++ ['"'])

def maxDepth : Nat := 32

structure Compiler where
  grammar : Grammar
  defsNt : List (List Char × NonTerminalId)
  defsCompiled : List (List Char × Bool)
  stringNt : Option NonTerminalId
  digitNt : Option NonTerminalId

/-- A build changes the compiler, or it fails. -/
abbrev SchemaBuild := StateT Compiler (Except JsonSchemaCompileError)

namespace Compiler

def new : Compiler := ⟨Grammar.new 0, [], [], none, none⟩

def allocNt (name : String) : SchemaBuild NonTerminalId := fun compiler =>
  .ok (compiler.grammar.ntCount, { compiler with grammar := (compiler.grammar.allocNt name).2 })

def addRule (lhs : NonTerminalId) (rhs : List Symbol) : SchemaBuild Unit :=
  modify fun compiler => { compiler with grammar := compiler.grammar.addRule ⟨lhs, rhs⟩ }

def fail {Result : Type} (error : JsonSchemaCompileError) : SchemaBuild Result := fun _ => .error error

/-- A text is spelled by the bytes of its encoding. -/
def terminal (text : List Char) : Symbol := .terminal (Utf8.encode text)

def char (c : Char) : Symbol := terminal [c]

/-- The scan allocates one identifier for each key of the definitions. -/
def pass1AllocDefs (root : Value) : SchemaBuild Unit :=
  match ((root.get "$defs").or (root.get "definitions")).bind Value.asObject with
  | none => pure ()
  | some map => (map.map Prod.fst).forM fun key => do
      let compiler ← get
      if (compiler.defsNt.lookup key).isSome then pure ()
      else
        let nt ← allocNt ("$def_" ++ String.ofList key)
        modify fun compiler => { compiler with
          defsNt := compiler.defsNt ++ [(key, nt)]
          defsCompiled := compiler.defsCompiled ++ [(key, false)] }

def unsupportedKeywords : List String :=
  ["not", "if", "then", "else", "patternProperties", "pattern", "format", "multipleOf", "exclusiveMinimum",
    "exclusiveMaximum"]

def stripPrefix (front : String) (text : List Char) : Option (List Char) :=
  if front.toList <+: text then some (text.drop front.toList.length) else none

def compileRef (refVal : Value) : SchemaBuild NonTerminalId := fun compiler =>
  match refVal.asStr with
  | none => .error (.invalidSchema "$ref must be a string")
  | some refStr =>
      match (stripPrefix "#/$defs/" refStr).or (stripPrefix "#/definitions/" refStr) with
      | none =>
          .error (.unsupportedKeyword ("$ref to external schema or unsupported path: " ++ String.ofList refStr))
      | some key =>
          match compiler.defsNt.lookup key with
          | none => .error (.danglingRef refStr)
          | some nt => .ok (nt, compiler)

/-- Only strings, integers, booleans and null have a literal. -/
def jsonValueToLiteral (writer : LiteralWriter) : Value → Except JsonSchemaCompileError (List Char)
  | .string text => .ok (writer.literal text)
  | .number (.posInt value) => .ok (Nat.toDigits 10 value.toNat)
  | .number (.negInt value) => .ok (toString value.toInt).toList
  | .number (.float _) => .error (.unsupportedKeyword "float enum values are not supported")
  | .bool value => .ok (if value then "true".toList else "false".toList)
  | .null => .ok "null".toList
  | _ => .error (.unsupportedKeyword "enum values must be strings, integers, booleans, or null")

def compileEnum (writer : LiteralWriter) (enumVal : Value) : SchemaBuild NonTerminalId :=
  match enumVal.asArray with
  | none => fail (.invalidSchema "\"enum\" value must be a JSON array")
  | some [] => fail (.invalidSchema "\"enum\" array must not be empty")
  | some values => do
      let enumNt ← allocNt "__enum"
      values.forM fun value => do
        let literal ← StateT.lift (jsonValueToLiteral writer value)
        addRule enumNt [terminal literal]
      return enumNt

/-- The characters of a string that the grammar writes without an escape. -/
def plainChars : List Char :=
  (List.range' 0x20 2 ++ List.range' 0x23 57 ++ List.range' 0x5d 34).map Char.ofNat

def digitChars : List Char := (List.range' 0x30 10).map Char.ofNat

def compileStringType : SchemaBuild NonTerminalId := do
  let compiler ← get
  match compiler.stringNt with
  | some nt => return nt
  | none => do
      let strNt ← allocNt "__string"
      let charsNt ← allocNt "__string_chars"
      let charNt ← allocNt "__string_char"
      addRule strNt [char '"', char '"']
      addRule strNt [char '"', .nonTerminal charsNt, char '"']
      addRule charsNt [.nonTerminal charNt]
      addRule charsNt [.nonTerminal charNt, .nonTerminal charsNt]
      plainChars.forM fun c => addRule charNt [char c]
      modify fun compiler => { compiler with stringNt := some strNt }
      return strNt

def ensureDigitNt : SchemaBuild NonTerminalId := do
  let compiler ← get
  match compiler.digitNt with
  | some nt => return nt
  | none => do
      let digitNt ← allocNt "__digit"
      digitChars.forM fun c => addRule digitNt [char c]
      modify fun compiler => { compiler with digitNt := some digitNt }
      return digitNt

/-- A run of one or more digits. -/
def compileDigits (name : String) (digitNt : NonTerminalId) : SchemaBuild NonTerminalId := do
  let digitsNt ← allocNt name
  addRule digitsNt [.nonTerminal digitNt]
  addRule digitsNt [.nonTerminal digitNt, .nonTerminal digitsNt]
  return digitsNt

/-- A run of digits behind an optional minus. -/
def compileSigned (name : String) (digitsNt : NonTerminalId) : SchemaBuild NonTerminalId := do
  let nt ← allocNt name
  addRule nt [.nonTerminal digitsNt]
  addRule nt [char '-', .nonTerminal digitsNt]
  return nt

def compileIntegerType : SchemaBuild NonTerminalId := do
  let digitNt ← ensureDigitNt
  let digitsNt ← compileDigits "__digits" digitNt
  compileSigned "__integer" digitsNt

def compileNumberType : SchemaBuild NonTerminalId := do
  let intNt ← compileIntegerType
  let digitNt ← ensureDigitNt
  let fracDigitsNt ← compileDigits "__frac_digits" digitNt
  let numNt ← allocNt "__number"
  addRule numNt [.nonTerminal intNt]
  addRule numNt [.nonTerminal intNt, char '.', .nonTerminal fracDigitsNt]
  return numNt

/-- A non-terminal with one rule of one terminal for each word. -/
def compileWords (name : String) (words : List (List Symbol)) : SchemaBuild NonTerminalId := do
  let nt ← allocNt name
  words.forM fun word => addRule nt word
  return nt

def compileBooleanType : SchemaBuild NonTerminalId :=
  compileWords "__boolean" [[terminal "true".toList], [terminal "false".toList]]

def compileNullType : SchemaBuild NonTerminalId := compileWords "__null" [[terminal "null".toList]]

/-- Objects and arrays of any value are empty. -/
def compileAnyValueType : SchemaBuild NonTerminalId := do
  let valNt ← allocNt "__any_value"
  let strNt ← compileStringType
  let boolNt ← compileBooleanType
  let nullNt ← compileNullType
  let digitNt ← ensureDigitNt
  let digitsNt ← compileDigits "__any_val_digits" digitNt
  let numNt ← compileSigned "__any_val_num" digitsNt
  let objStubNt ← compileWords "__any_val_obj" [[char '{', char '}']]
  let arrStubNt ← compileWords "__any_val_arr" [[char '[', char ']']]
  [strNt, boolNt, nullNt, numNt, objStubNt, arrStubNt].forM fun nt => addRule valNt [.nonTerminal nt]
  return valNt

section Nested

variable (writer : LiteralWriter) (compile : Value → SchemaBuild NonTerminalId)

def compileAnyOf (arr : Value) : SchemaBuild NonTerminalId :=
  match arr.asArray with
  | none => fail (.invalidSchema "anyOf/oneOf must be an array")
  | some [] => fail (.invalidSchema "anyOf/oneOf must have at least one variant")
  | some variants => do
      let anyNt ← allocNt "__anyOf"
      variants.forM fun variant => do
        let varNt ← compile variant
        addRule anyNt [.nonTerminal varNt]
      return anyNt

def requiredNames (schema : Value) : List (List Char) :=
  (((schema.get "required").bind Value.asArray).getD []).filterMap Value.asStr

def properties (schema : Value) : JsonMap SerdeNumber :=
  ((schema.get "properties").bind Value.asObject).getD []

/-- The members of an object, with a comma in front of each one but the first. -/
def objectBody : List (List Char × NonTerminalId) → List Symbol
  | [] => []
  | (name, nt) :: rest =>
      [terminal (writer.literal name), char ':', .nonTerminal nt] ++
        rest.flatMap fun member =>
          [char ',', terminal (writer.literal member.1), char ':', .nonTerminal member.2]

def compileObjectType (schema : Value) : SchemaBuild NonTerminalId := do
  match schema.get "additionalProperties" with
  | some additional =>
      if additional.asBool = none then
        fail (.unsupportedKeyword "additionalProperties as a subschema is not supported; use false or omit it")
  | none => pure ()
  let objNt ← allocNt "__object"
  if requiredNames schema = [] then
    addRule objNt [char '{', char '}']
    return objNt
  else
    let propNts ← (requiredNames schema).mapM fun name =>
      match (properties schema).lookup name with
      | none =>
          fail (.invalidSchema ("required property '" ++ String.ofList name ++ "' not found in 'properties'"))
      | some subSchema => do
          let nt ← compile subSchema
          return (name, nt)
    addRule objNt ([char '{'] ++ objectBody writer propNts ++ [char '}'])
    return objNt

def compileArrayType (schema : Value) : SchemaBuild NonTerminalId := do
  let itemNt ← match schema.get "items" with
    | some items => compile items
    | none => compileAnyValueType
  let itemsNt ← allocNt "__array_items"
  addRule itemsNt [.nonTerminal itemNt]
  addRule itemsNt [.nonTerminal itemNt, char ',', .nonTerminal itemsNt]
  let arrNt ← allocNt "__array"
  addRule arrNt [char '[', char ']']
  addRule arrNt [char '[', .nonTerminal itemsNt, char ']']
  return arrNt

def isObjectSchema (variant : Value) : Bool :=
  ((variant.get "type").bind Value.asStr) == some "object".toList || (variant.get "properties").isSome

/-- The properties of a later branch take the place of earlier ones with the same name. -/
def mergedProperties (variants : List Value) : JsonMap SerdeNumber :=
  JsonMap.ofMembers (variants.flatMap properties)

/-- Each required name of the branches is kept once. -/
def mergedRequired (variants : List Value) : List (List Char) :=
  (variants.flatMap requiredNames).foldl (fun names name => if name ∈ names then names else names ++ [name]) []

def closesObject (variant : Value) : Bool :=
  ((variant.get "additionalProperties").bind Value.asBool) == some false

def mergedSchema (variants : List Value) : Value :=
  .object (JsonMap.ofMembers
    ([("type".toList, .string "object".toList), ("properties".toList, .object (mergedProperties variants)),
      ("required".toList, .array ((mergedRequired variants).map .string))] ++
      if variants.any closesObject then [("additionalProperties".toList, .bool false)] else []))

def compileAllOf (allOfArr : Value) : SchemaBuild NonTerminalId :=
  match allOfArr.asArray with
  | none => fail (.invalidSchema "allOf must be an array")
  | some [] => fail (.invalidSchema "allOf must have at least one element")
  | some variants =>
      if variants.all isObjectSchema then compileObjectType writer compile (mergedSchema variants)
      else fail (.unsupportedKeyword "allOf can only merge object schemas in this compiler")

/-- The type of a schema without other keywords. -/
def compileTyped (schema : Value) : SchemaBuild NonTerminalId :=
  match (schema.get "type").bind Value.asStr with
  | none => compileAnyValueType
  | some name =>
      if name = "string".toList then compileStringType
      else if name = "integer".toList then compileIntegerType
      else if name = "number".toList then compileNumberType
      else if name = "boolean".toList then compileBooleanType
      else if name = "null".toList then compileNullType
      else if name = "object".toList then compileObjectType writer compile schema
      else if name = "array".toList then compileArrayType compile schema
      else fail (.invalidSchema ("unknown type: '" ++ String.ofList name ++ "'"))

/-- The first keyword of a fixed order decides how an object schema is compiled. -/
def compileKeywords (schema : Value) : SchemaBuild NonTerminalId :=
  match unsupportedKeywords.find? fun keyword => (schema.get keyword).isSome with
  | some keyword => fail (.unsupportedKeyword keyword)
  | none =>
      match schema.get "$ref" with
      | some refVal => compileRef refVal
      | none =>
          match schema.get "enum" with
          | some enumVal => compileEnum writer enumVal
          | none =>
              match (schema.get "anyOf").or (schema.get "oneOf") with
              | some anyOf => compileAnyOf compile anyOf
              | none =>
                  match schema.get "allOf" with
                  | some allOf => compileAllOf writer compile allOf
                  | none => compileTyped writer compile schema

end Nested

/-- The number counts the levels of nesting that are left. -/
def compileSchema (writer : LiteralWriter) : Nat → Value → SchemaBuild NonTerminalId
  | 0, _ => fail (.depthExceeded maxDepth)
  | left + 1, schema =>
      match schema with
      | .bool _ => compileWords "__bool_schema" [[.terminal []]]
      | .object _ => compileKeywords writer (compileSchema writer left) schema
      | _ => fail (.invalidSchema "schema must be a JSON object or boolean")

def pass2CompileDef (writer : LiteralWriter) (root : Value) (key : List Char) : SchemaBuild Unit := do
  let compiler ← get
  if (compiler.defsCompiled.lookup key).getD false then pure ()
  else
    modify fun compiler => { compiler with defsCompiled := (key, true) :: compiler.defsCompiled }
    match compiler.defsNt.lookup key,
        ((root.get "$defs").or (root.get "definitions")).bind fun defs => defs.get (String.ofList key) with
    | some defNt, some body => do
        let compiledNt ← compileSchema writer (maxDepth + 1) body
        if compiledNt ≠ defNt then addRule defNt [.nonTerminal compiledNt]
    | _, _ => fail (.invalidSchema ("$defs key '" ++ String.ofList key ++ "' not found"))

/-- The definitions are compiled in the order of a hashed map. -/
def compile (order : HashOrder (List Char)) (writer : LiteralWriter) (root : Value) :
    Except JsonSchemaCompileError Grammar := do
  let (start, compiler) ← (do
    pass1AllocDefs root
    let compiler ← get
    (order.iterate 0 (compiler.defsNt.map Prod.fst).toFinset).forM (pass2CompileDef writer root)
    compileSchema writer (maxDepth + 1) root : SchemaBuild NonTerminalId) new
  return { compiler.grammar with start := start }

end Compiler

def compileJsonSchema (order : HashOrder (List Char)) (writer : LiteralWriter) (schema : Value) :
    Except JsonSchemaCompileError Grammar :=
  Compiler.compile order writer schema

end Pictor
