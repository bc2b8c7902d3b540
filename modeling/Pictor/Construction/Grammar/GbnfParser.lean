import Pictor.Construction.Grammar.Ast
import Pictor.Library.LineText

namespace Pictor.Gbnf

open String (utf8EncodeChar)

inductive GbnfParseError where
  | emptyGrammar
  | missingRootRule
  | unknownRule (name : String)
  | unexpectedChar (line col : Nat) (ch : Char)
  | unterminatedString
  | unterminatedCharClass
  | invalidEscape (ch : Char)
  | unsupportedFeature (feature : String)
  | recursionLimit
  deriving DecidableEq, Repr

def maxDepth : Nat := 64

inductive Token where
  | ident (name : String)
  | assign
  | pipe
  | star
  | plus
  | question
  | lParen
  | rParen
  | stringLit (bytes : List UInt8)
  | charClass (bytes : List UInt8)
  | newline
  | eof
  deriving DecidableEq, Repr

/-- The result of a loop with a bound: no result means that the bound is used up. -/
abbrev GbnfParse := ExceptT GbnfParseError Option

def outOfFuel {Result : Type} : GbnfParse Result := ExceptT.mk none

def lift {Result : Type} (step : Except GbnfParseError Result) : GbnfParse Result := ExceptT.mk (some step)

/-- The state of the lexer has the characters from its position on. -/
structure Lexer where
  rest : List Char
  line : Nat
  col : Nat

namespace Lexer

def new (src : List Char) : Lexer := ⟨src, 1, 1⟩

def peek (lexer : Lexer) : Option Char := lexer.rest.head?

def peek2 (lexer : Lexer) : Option Char := lexer.rest.tail.head?

def advance (lexer : Lexer) : Lexer :=
  match lexer.rest with
  | [] => lexer
  | ch :: rest => if ch = '\n' then ⟨rest, lexer.line + 1, 1⟩ else ⟨rest, lexer.line, lexer.col + 1⟩

/-- The characters on one line that have a property are passed. -/
def skipWhile (skips : Char → Bool) (lexer : Lexer) : Lexer :=
  ⟨lexer.rest.dropWhile skips, lexer.line, lexer.col + (lexer.rest.takeWhile skips).length⟩

def skipSpaces (lexer : Lexer) : Lexer := lexer.skipWhile fun ch => ch = ' ' ∨ ch = '\t' ∨ ch = '\r'

/-- The two digits of a hexadecimal escape. The error is placed behind them. -/
def parseHexEscape (lexer : Lexer) : Except GbnfParseError (UInt8 × Lexer) :=
  match lexer.rest with
  | hi :: lo :: _ =>
      let lexer := lexer.advance.advance
      match parseHexByte [hi, lo] with
      | some byte => .ok (byte, lexer)
      | none => .error (.unexpectedChar lexer.line lexer.col hi)
  | _ => .error .unterminatedString

/-- The byte of a short escape. -/
def escapeOf : Char → Option UInt8
  | 'n' => some 10
  | 'r' => some 13
  | 't' => some 9
  | '\\' => some 92
  | '"' => some 34
  | '\'' => some 39
  | '0' => some 0
  | _ => none

def parseEscapeByte (lexer : Lexer) : Except GbnfParseError (UInt8 × Lexer) :=
  match lexer.peek with
  | none => .error .unterminatedString
  | some ch =>
      if ch = 'x' then lexer.advance.parseHexEscape
      else
        match escapeOf ch with
        | some byte => .ok (byte, lexer.advance)
        | none => .error (.invalidEscape ch)

/-- The opening quote is consumed. -/
def parseStringLit : Nat → Lexer → List UInt8 → GbnfParse (List UInt8 × Lexer)
  | 0, _, _ => outOfFuel
  | fuel + 1, lexer, bytes =>
      match lexer.peek with
      | none => throw .unterminatedString
      | some ch =>
          if ch = '"' then pure (bytes, lexer.advance)
          else if ch = '\\' then do
            let (byte, lexer) ← lift lexer.advance.parseEscapeByte
            parseStringLit fuel lexer (bytes ++ [byte])
          else parseStringLit fuel lexer.advance (bytes ++ utf8EncodeChar ch)

/-- A character of one byte. -/
def asciiByte (feature : String) (ch : Char) : Except GbnfParseError UInt8 :=
  match utf8EncodeChar ch with
  | [byte] => .ok byte
  | _ => .error (.unsupportedFeature feature)

def parseClassSingleByte (lexer : Lexer) : Except GbnfParseError (UInt8 × Lexer) :=
  match lexer.peek with
  | none => .error .unterminatedCharClass
  | some ch =>
      if ch = ']' then .error .unterminatedCharClass
      else if ch = '\\' then lexer.advance.parseEscapeByte
      else do
        let byte ← asciiByte "non-ASCII character in character class range" ch
        .ok (byte, lexer.advance)

def allBytes : List UInt8 := (List.range 256).map UInt8.ofNat

/-- A byte, or a range that starts with it, joins the set. -/
def classMember (set : List UInt8) (byte : UInt8) (lexer : Lexer) : Except GbnfParseError (List UInt8 × Lexer) :=
  if lexer.peek = some '-' ∧ lexer.peek2 ≠ some ']' then do
    let (endByte, lexer) ← lexer.advance.parseClassSingleByte
    .ok (set ++ allBytes.filter fun other => byte ≤ other ∧ other ≤ endByte, lexer)
  else .ok (set ++ [byte], lexer)

/-- The loop over the body of a class up to its bracket. -/
def classLoop : Nat → Lexer → List UInt8 → GbnfParse (List UInt8 × Lexer)
  | 0, _, _ => outOfFuel
  | fuel + 1, lexer, set =>
      match lexer.peek with
      | none => throw .unterminatedCharClass
      | some ch =>
          if ch = ']' then pure (set, lexer.advance)
          else if ch = '\\' then do
            let (byte, lexer) ← lift lexer.advance.parseEscapeByte
            let (set, lexer) ← lift (classMember set byte lexer)
            classLoop fuel lexer set
          else do
            let byte ← lift (asciiByte "non-ASCII character in character class" ch)
            let (set, lexer) ← lift (classMember set byte lexer.advance)
            classLoop fuel lexer set

/-- The opening bracket is consumed. -/
def parseCharClass (fuel : Nat) (lexer : Lexer) : GbnfParse (List UInt8 × Lexer) := do
  let negated := lexer.peek = some '^'
  let (set, lexer) ← classLoop fuel (if negated then lexer.advance else lexer) []
  pure (allBytes.filter (fun byte => decide (byte ∈ set) != negated), lexer)

/-- The token of a single character. -/
def operatorOf : Char → Option Token
  | '\n' => some .newline
  | '|' => some .pipe
  | '*' => some .star
  | '+' => some .plus
  | '?' => some .question
  | '(' => some .lParen
  | ')' => some .rParen
  | _ => none

def startsIdent (ch : Char) : Bool := ch.isAlpha || ch = '_'

def continuesIdent (ch : Char) : Bool := ch.isAlphanum || ch = '_' || ch = '-'

/-- Each round consumes a character behind the spaces. -/
def tokenise : Nat → Lexer → List Token → GbnfParse (List Token)
  | 0, _, _ => outOfFuel
  | fuel + 1, lexer, tokens =>
      let lexer := lexer.skipSpaces
      match lexer.rest with
      | [] => pure (tokens ++ [.eof])
      | ch :: behind =>
          match operatorOf ch with
          | some token => tokenise fuel lexer.advance (tokens ++ [token])
          | none =>
              if ch = '#' then tokenise fuel (lexer.skipWhile fun ch => ch ≠ '\n') tokens
              else if ch = ':' then
                match behind with
                | ':' :: '=' :: rest => tokenise fuel ⟨rest, lexer.line, lexer.col + 3⟩ (tokens ++ [.assign])
                | _ => throw (.unexpectedChar lexer.line lexer.col ':')
              else if ch = '"' then do
                let (bytes, lexer) ← parseStringLit lexer.rest.length lexer.advance []
                tokenise fuel lexer (tokens ++ [.stringLit bytes])
              else if ch = '[' then do
                let (bytes, lexer) ← parseCharClass lexer.rest.length lexer.advance
                tokenise fuel lexer (tokens ++ [.charClass bytes])
              else if startsIdent ch then
                tokenise fuel (lexer.skipWhile continuesIdent)
                  (tokens ++ [.ident (String.ofList (lexer.rest.takeWhile continuesIdent))])
              else throw (.unexpectedChar lexer.line lexer.col ch)

end Lexer

def skipNewlines (tokens : List Token) : List Token := tokens.dropWhile fun token => token = .newline

/-- The names that stand in front of an assignment, each one once. -/
def collectRuleNames : List Token → List String → List String
  | [], names => names
  | .ident name :: tokens, names =>
      if (skipNewlines tokens).head? = some .assign ∧ name ∉ names then collectRuleNames tokens (names ++ [name])
      else collectRuleNames tokens names
  | _ :: tokens, names => collectRuleNames tokens names

/-- A representative character for the reports. -/
def tokenToChar : Token → Char
  | .assign => ':'
  | .pipe => '|'
  | .star => '*'
  | .plus => '+'
  | .question => '?'
  | .lParen => '('
  | .rParen => ')'
  | .newline => '\n'
  | .eof => Char.ofNat 0
  | .ident _ => 'i'
  | .stringLit _ => '"'
  | .charClass _ => '['

def unexpected (token : Token) : GbnfParseError := .unexpectedChar 0 0 (tokenToChar token)

/-- A string literal stands in the sequence itself. -/
inductive AtomResult where
  | inline (bytes : List UInt8)
  | single (symbol : Symbol)
  deriving DecidableEq, Repr

def atomToSymbols : AtomResult → List Symbol
  | .inline bytes => bytes.map fun byte => .terminal [byte]
  | .single symbol => [symbol]

/-- The state of the parser has the tokens from its position on. -/
structure Parser where
  tokens : List Token
  defined : List NonTerminalId
  grammar : Grammar
  syntheticCounter : Nat

namespace Parser

def new (tokens : List Token) (grammar : Grammar) : Parser := ⟨tokens, [], grammar, 0⟩

def peek (parser : Parser) : Token := parser.tokens.head?.getD .eof

def advance (parser : Parser) : Parser := { parser with tokens := parser.tokens.tail }

def skipNewlines (parser : Parser) : Parser := { parser with tokens := Gbnf.skipNewlines parser.tokens }

def addRule (parser : Parser) (lhs : NonTerminalId) (rhs : List Symbol) : Parser :=
  { parser with grammar := parser.grammar.addRule ⟨lhs, rhs⟩ }

def allocSynthetic (parser : Parser) (kind : String) : NonTerminalId × Parser :=
  let (id, grammar) := parser.grammar.allocNt ("__" ++ kind ++ "_" ++ toString parser.syntheticCounter)
  (id, { parser with grammar := grammar, syntheticCounter := parser.syntheticCounter + 1 })

def isNewRuleStart (parser : Parser) : Bool :=
  match parser.peek with
  | .ident _ => (Gbnf.skipNewlines parser.tokens.tail).head? = some .assign
  | _ => false

/-- An optional atom has an empty rule and its own rule. -/
def addOptional (parser : Parser) (atom : AtomResult) : List Symbol × Parser :=
  let (nt, parser) := parser.allocSynthetic "gbnf_opt"
  ([.nonTerminal nt], (parser.addRule nt []).addRule nt (atomToSymbols atom))

/-- A repeated atom has an empty rule and a rule with one atom more. -/
def addStar (parser : Parser) (atom : AtomResult) : NonTerminalId × Parser :=
  let (nt, parser) := parser.allocSynthetic "gbnf_star"
  (nt, (parser.addRule nt []).addRule nt (atomToSymbols atom ++ [.nonTerminal nt]))

def addPlus (parser : Parser) (atom : AtomResult) : List Symbol × Parser :=
  let (star, parser) := parser.addStar atom
  let (nt, parser) := parser.allocSynthetic "gbnf_plus"
  ([.nonTerminal nt], parser.addRule nt (atomToSymbols atom ++ [.nonTerminal star]))

def applyQuantifier (depth : Nat) (atom : AtomResult) (parser : Parser) :
    Except GbnfParseError (List Symbol × Parser) :=
  if maxDepth < depth then .error .recursionLimit
  else
    match parser.peek with
    | .star =>
        let (nt, parser) := parser.advance.addStar atom
        .ok ([.nonTerminal nt], parser)
    | .plus => .ok (parser.advance.addPlus atom)
    | .question => .ok (parser.advance.addOptional atom)
    | _ => .ok (atomToSymbols atom, parser)

/-- A class has one rule for each of its bytes. -/
def addClass (parser : Parser) (bytes : List UInt8) : NonTerminalId × Parser :=
  let (nt, parser) := parser.allocSynthetic "gbnf_class"
  (nt, bytes.foldl (fun parser byte => parser.addRule nt [.terminal [byte]]) parser)

def expect (token : Token) (parser : Parser) : Except GbnfParseError Parser :=
  if parser.peek = token then .ok parser.advance else .error (unexpected parser.peek)

section Rules

variable (ntMap : List (String × NonTerminalId))

def resolveNt (name : String) : Except GbnfParseError NonTerminalId :=
  match ntMap.lookup name with
  | some id => .ok id
  | none => .error (.unknownRule name)

mutual

/-- The alternatives of a body become rules of the left-hand side. -/
def parseBodyInto : Nat → NonTerminalId → Nat → Parser → GbnfParse Parser
  | 0, _, _, _ => outOfFuel
  | fuel + 1, lhs, depth, parser =>
      if maxDepth < depth then throw .recursionLimit else bodyLoop fuel lhs depth parser

def bodyLoop : Nat → NonTerminalId → Nat → Parser → GbnfParse Parser
  | 0, _, _, _ => outOfFuel
  | fuel + 1, lhs, depth, parser => do
      let (rhs, parser) ← parseAlternative fuel depth [] parser
      let parser := parser.addRule lhs rhs
      if parser.peek = .pipe then bodyLoop fuel lhs depth parser.advance.skipNewlines
      else pure parser

/-- The loop over the atoms of an alternative. A line break ends the rule unless a bar follows. -/
def parseAlternative : Nat → Nat → List Symbol → Parser → GbnfParse (List Symbol × Parser)
  | 0, _, _, _ => outOfFuel
  | fuel + 1, depth, sequence, parser =>
      match parser.peek with
      | .eof | .rParen | .pipe => pure (sequence, parser)
      | .newline =>
          if parser.skipNewlines.peek = .pipe then pure (sequence, parser.skipNewlines)
          else pure (sequence, parser)
      | _ =>
          if parser.isNewRuleStart then pure (sequence, parser)
          else do
            let (atom, parser) ← parseAtom fuel depth parser
            let (symbols, parser) ← lift (parser.applyQuantifier depth atom)
            parseAlternative fuel depth (sequence ++ symbols) parser

def parseAtom : Nat → Nat → Parser → GbnfParse (AtomResult × Parser)
  | 0, _, _ => outOfFuel
  | fuel + 1, depth, parser =>
      if maxDepth < depth then throw .recursionLimit
      else
        match parser.peek with
        | .stringLit bytes => pure (.inline bytes, parser.advance)
        | .charClass bytes =>
            let (nt, parser) := parser.advance.addClass bytes
            pure (.single (.nonTerminal nt), parser)
        | .ident name => do
            let id ← lift (resolveNt ntMap name)
            pure (.single (.nonTerminal id), parser.advance)
        | .lParen => do
            let (nt, parser) := parser.advance.allocSynthetic "gbnf_group"
            let parser ← parseBodyInto fuel nt (depth + 1) parser
            let parser ← lift (parser.expect .rParen)
            pure (.single (.nonTerminal nt), parser)
        | token => throw (unexpected token)

end

/-- One rule definition: a name, an assignment and a body. -/
def parseOneRule (fuel : Nat) (parser : Parser) : GbnfParse Parser :=
  match parser.peek with
  | .eof => pure parser
  | .ident name => do
      let parser ← lift (parser.advance.skipNewlines.expect .assign)
      let id ← lift (resolveNt ntMap name)
      parseBodyInto ntMap fuel id 0 { parser with defined := id :: parser.defined }
  | token => throw (unexpected token)

/-- The loop over the rule definitions. -/
def parseRules : Nat → Parser → GbnfParse Parser
  | 0, _ => outOfFuel
  | fuel + 1, parser =>
      if parser.peek = .eof then pure parser
      else do
        let parser ← parseOneRule ntMap (4 * parser.tokens.length + 4) parser
        parseRules fuel parser.skipNewlines

def parseAll (parser : Parser) : GbnfParse Parser := parseRules ntMap (parser.tokens.length + 1) parser.skipNewlines

end Rules

end Parser

/-- The names of the non-terminals of right-hand sides that have no definition and are not synthetic. -/
def violations (grammar : Grammar) (defined : List NonTerminalId) : List String :=
  (grammar.rules.flatMap Rule.rhs).filterMap fun symbol =>
    match symbol with
    | .nonTerminal id =>
        let name := (grammar.ntNames.lookup id).getD ""
        if ¬ name.startsWith "__" ∧ id ∉ defined then some name else none
    | .terminal _ => none

/-- The names get the first non-terminals. -/
def allocNames (names : List String) (grammar : Grammar) : List (String × NonTerminalId) × Grammar :=
  match names with
  | [] => ([], grammar)
  | name :: names =>
      let (id, grammar) := grammar.allocNt name
      let (ntMap, grammar) := allocNames names grammar
      ((name, id) :: ntMap, grammar)

/-- The grammar of the rules in a stream of tokens. -/
def parseTokens (tokens : List Token) : GbnfParse Grammar :=
  if tokens.all fun token => token = .newline ∨ token = .eof then throw .emptyGrammar
  else
    let ruleNames := collectRuleNames tokens []
    if ruleNames = [] then throw .emptyGrammar
    else if "root" ∉ ruleNames then throw .missingRootRule
    else do
      let (ntMap, grammar) := allocNames ruleNames (Grammar.new 0)
      let rootId := (ntMap.lookup "root").getD 0
      let parser ← (Parser.new tokens { grammar with start := rootId }).parseAll ntMap
      match violations parser.grammar parser.defined with
      | unknown :: _ => throw (.unknownRule unknown)
      | [] => pure parser.grammar

def parseGbnf (src : List Char) : GbnfParse Grammar := do
  let tokens ← Lexer.tokenise (src.length + 1) (Lexer.new src) []
  parseTokens tokens

end Pictor.Gbnf
