import Mathlib.Data.List.Basic

namespace Pictor
open List

abbrev NonTerminalId := Nat

abbrev RuleId := Nat

/-- An empty terminal is a valid epsilon terminal. -/
inductive Symbol where
  | terminal (bytes : List UInt8)
  | nonTerminal (id : NonTerminalId)
  deriving DecidableEq, Repr

/-- An empty right-hand side is an epsilon production. -/
structure Rule where
  lhs : NonTerminalId
  rhs : List Symbol
  deriving DecidableEq, Repr, Inhabited

/-- Rules have the index of their position as identifier. -/
structure Grammar where
  rules : List Rule
  start : NonTerminalId
  ntNames : List (NonTerminalId × String)
  ntCount : Nat
  deriving DecidableEq, Repr

namespace Grammar

def new (start : NonTerminalId) : Grammar := ⟨[], start, [], 0⟩

def addRule (grammar : Grammar) (rule : Rule) : Grammar :=
  { grammar with rules := grammar.rules ++ [rule] }

/-- A fresh identifier is the number of identifiers so far. -/
def allocNt (grammar : Grammar) (name : String) : NonTerminalId × Grammar :=
  (grammar.ntCount,
    { grammar with
      ntCount := grammar.ntCount + 1
      ntNames := (grammar.ntCount, name) :: grammar.ntNames })

/-- The rule at an index. The source indexes only with identifiers of existing rules. -/
def ruleAt (grammar : Grammar) (id : RuleId) : Rule := grammar.rules.getD id default

/-- An existing rule is a member of the rule list. -/
theorem ruleAt_mem (grammar : Grammar) (id : RuleId) (inside : id < grammar.rules.length) :
    grammar.ruleAt id ∈ grammar.rules := by
  rw [ruleAt, getD_eq_getElem?_getD, getElem?_eq_getElem inside]
  exact getElem_mem inside

/-- Each member of the rule list has an identifier. -/
theorem exists_ruleAt (grammar : Grammar) {rule : Rule} (member : rule ∈ grammar.rules) :
    ∃ id, id < grammar.rules.length ∧ grammar.ruleAt id = rule := by
  obtain ⟨id, inside, found⟩ := getElem_of_mem member
  refine ⟨id, inside, ?_⟩
  rw [ruleAt, getD_eq_getElem?_getD, getElem?_eq_getElem inside, Option.getD_some, found]

/-- One lower-case hexadecimal digit. -/
def hexDigit (value : Nat) : Char :=
  if value < 10 then Char.ofNat (48 + value) else Char.ofNat (87 + value)

/-- The name of a chain lists its bytes in hexadecimal. -/
def chainName (bytes : List UInt8) : String :=
  "__T_" ++ "_".intercalate (bytes.map fun byte =>
    String.ofList [hexDigit (byte.toNat / 16), hexDigit (byte.toNat % 16)])

/-- The cache of the normalisation maps a byte sequence to its chain. -/
abbrev ChainCache := List (List UInt8 × NonTerminalId)

/-- The chain of a byte sequence is built at most once. The source calls this with at least one
byte. -/
def internByteChain : List UInt8 → Grammar → ChainCache → NonTerminalId × Grammar × ChainCache
  | [], grammar, cache => (grammar.ntCount, grammar, cache)
  | byte :: rest, grammar, cache =>
      match cache.lookup (byte :: rest) with
      | some id => (id, grammar, cache)
      | none =>
          let (nt, grammar) := grammar.allocNt (chainName (byte :: rest))
          let cache := (byte :: rest, nt) :: cache
          if rest = [] then
            (nt, grammar.addRule ⟨nt, [.terminal [byte]]⟩, cache)
          else
            let (restNt, grammar, cache) := internByteChain rest grammar cache
            (nt, grammar.addRule ⟨nt, [.terminal [byte], .nonTerminal restNt]⟩, cache)

/-- Each multi-byte terminal of a right-hand side becomes its chain. -/
def normaliseRhs : List Symbol → Grammar → ChainCache → List Symbol × Grammar × ChainCache
  | [], grammar, cache => ([], grammar, cache)
  | .terminal bytes :: rest, grammar, cache =>
      if 1 < bytes.length then
        let (chain, grammar, cache) := internByteChain bytes grammar cache
        let (rhs, grammar, cache) := normaliseRhs rest grammar cache
        (.nonTerminal chain :: rhs, grammar, cache)
      else
        let (rhs, grammar, cache) := normaliseRhs rest grammar cache
        (.terminal bytes :: rhs, grammar, cache)
  | .nonTerminal id :: rest, grammar, cache =>
      let (rhs, grammar, cache) := normaliseRhs rest grammar cache
      (.nonTerminal id :: rhs, grammar, cache)

/-- The loop rewrites the rules that exist when the normalisation starts. -/
def normaliseFrom : Nat → Nat → Grammar → ChainCache → Grammar
  | 0, _, grammar, _ => grammar
  | count + 1, index, grammar, cache =>
      let rule := grammar.ruleAt index
      let (rhs, grammar, cache) := normaliseRhs rule.rhs grammar cache
      let grammar := { grammar with rules := grammar.rules.set index { rule with rhs := rhs } }
      normaliseFrom count (index + 1) grammar cache

def normaliseTerminals (grammar : Grammar) : Grammar :=
  normaliseFrom grammar.rules.length 0 grammar []

/-- The recognizer requires terminals of at most one byte and identifiers below the count. -/
structure Normalised (grammar : Grammar) : Prop where
  terminals : ∀ rule ∈ grammar.rules, ∀ bytes, .terminal bytes ∈ rule.rhs → bytes.length ≤ 1
  startBound : grammar.start < grammar.ntCount
  lhsBound : ∀ rule ∈ grammar.rules, rule.lhs < grammar.ntCount
  rhsBound : ∀ rule ∈ grammar.rules, ∀ id, .nonTerminal id ∈ rule.rhs → id < grammar.ntCount

/-- A symbol sequence derives a byte string when each symbol derives its part. -/
inductive Derives (grammar : Grammar) : List Symbol → List UInt8 → Prop
  | nil : Derives grammar [] []
  | terminal {bytes : List UInt8} {rest : List Symbol} {word : List UInt8} :
      Derives grammar rest word → Derives grammar (.terminal bytes :: rest) (bytes ++ word)
  | nonTerminal {rule : Rule} {rest : List Symbol} {first second : List UInt8} :
      rule ∈ grammar.rules → Derives grammar rule.rhs first → Derives grammar rest second →
      Derives grammar (.nonTerminal rule.lhs :: rest) (first ++ second)

/-- The language of the grammar is what its start symbol derives. -/
def Generates (grammar : Grammar) (word : List UInt8) : Prop :=
  Derives grammar [.nonTerminal grammar.start] word

/-- Two derivations combine to a derivation of the joined sequence. -/
theorem Derives.append {grammar : Grammar} {first second : List Symbol} {u v : List UInt8}
    (left : Derives grammar first u) (right : Derives grammar second v) :
    Derives grammar (first ++ second) (u ++ v) := by
  induction left with
  | nil => exact right
  | terminal _ ih =>
      rw [append_assoc]
      exact .terminal ih
  | nonTerminal member inner _ _ ih =>
      rw [append_assoc]
      exact .nonTerminal member inner ih

/-- A terminal derives its own bytes. -/
theorem Derives.bytes {grammar : Grammar} (bytes : List UInt8) : Derives grammar [.terminal bytes] bytes := by
  have single : Derives grammar [.terminal bytes] (bytes ++ []) := .terminal .nil
  rwa [append_nil] at single

/-- One rule derives what its right-hand side derives. -/
theorem Derives.rule {grammar : Grammar} {rule : Rule} {word : List UInt8}
    (member : rule ∈ grammar.rules) (inner : Derives grammar rule.rhs word) :
    Derives grammar [.nonTerminal rule.lhs] word := by
  have joined := Derives.nonTerminal member inner Derives.nil
  rwa [append_nil] at joined

/-- A non-terminal derives what its rules derive. -/
theorem derives_nonTerminal {grammar : Grammar} {id : NonTerminalId} {word : List UInt8} :
    Derives grammar [.nonTerminal id] word ↔
      ∃ rule ∈ grammar.rules, rule.lhs = id ∧ Derives grammar rule.rhs word := by
  constructor
  · rintro (_ | _ | ⟨member, inner, rest⟩)
    rename_i rule first second
    cases rest
    refine ⟨rule, member, rfl, ?_⟩
    rwa [append_nil]
  · rintro ⟨rule, member, rfl, inner⟩
    exact .rule member inner

/-- A terminal in front derives its bytes in front. -/
theorem derives_terminal_cons {grammar : Grammar} {bytes word : List UInt8} {rest : List Symbol} :
    Derives grammar (.terminal bytes :: rest) word ↔ ∃ tail, word = bytes ++ tail ∧ Derives grammar rest tail := by
  constructor
  · rintro (_ | inner)
    exact ⟨_, rfl, inner⟩
  · rintro ⟨tail, rfl, inner⟩
    exact .terminal inner

/-- A non-terminal in front derives a front of the word. -/
theorem derives_nonTerminal_cons {grammar : Grammar} {id : NonTerminalId} {word : List UInt8} {rest : List Symbol} :
    Derives grammar (.nonTerminal id :: rest) word ↔
      ∃ front tail, word = front ++ tail ∧ Derives grammar [.nonTerminal id] front ∧ Derives grammar rest tail := by
  constructor
  · rintro (_ | _ | ⟨member, inner, later⟩)
    exact ⟨_, _, rfl, .rule member inner, later⟩
  · rintro ⟨front, tail, rfl, first, later⟩
    exact first.append later

end Grammar

end Pictor
