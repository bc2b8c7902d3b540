import Pictor.Library.Outcome
import Pictor.Proof.Grammar.GbnfReading

namespace Pictor.Gbnf
open List

open Outcome

variable {ntMap : List (String × NonTerminalId)} {parser parser' : Parser} {fuel depth : Nat} {lhs : NonTerminalId}
  {sequence : List Symbol}

theorem Parser.peek_tokens {token : Token} (known : parser.peek = token) (solid : token ≠ .eof) :
    parser.tokens = token :: parser.advance.tokens := by
  rw [Parser.peek] at known
  rw [Parser.advance]
  cases tokens : parser.tokens with
  | nil =>
      rw [tokens] at known
      exact absurd known.symm solid
  | cons other rest =>
      rw [tokens, head?_cons, Option.getD_some] at known
      rw [known, tail_cons]

/-- An atom was read, and the grammar has its rules. -/
def AtomRun (ntMap : List (String × NonTerminalId)) (parser : Parser) (result : AtomResult × Parser) : Prop :=
  ∃ tokens e, parser.tokens = tokens ++ result.2.tokens ∧ Reads .atom tokens e ∧
    Compiles ntMap parser.grammar result.2.grammar e (atomToSymbols result.1)

def ItemRun (ntMap : List (String × NonTerminalId)) (parser : Parser) (result : List Symbol × Parser) : Prop :=
  ∃ tokens e, parser.tokens = tokens ++ result.2.tokens ∧ Reads .item tokens e ∧
    Compiles ntMap parser.grammar result.2.grammar e result.1

/-- The line breaks in front of a bar are consumed with the alternative. -/
def SequenceRun (ntMap : List (String × NonTerminalId)) (parser : Parser) (sequence : List Symbol)
    (result : List Symbol × Parser) : Prop :=
  ∃ tokens breaks e rhs, result.1 = sequence ++ rhs ∧ parser.tokens = tokens ++ (newlines breaks ++ result.2.tokens) ∧
    (breaks ≠ 0 → result.2.peek = .pipe) ∧ Reads .sequence tokens e ∧
    Compiles ntMap parser.grammar result.2.grammar e rhs

def BodyRun (ntMap : List (String × NonTerminalId)) (lhs : NonTerminalId) (parser parser' : Parser) : Prop :=
  ∃ tokens e, parser.tokens = tokens ++ parser'.tokens ∧ Reads .body tokens e ∧
    Fills ntMap lhs parser.grammar parser'.grammar e

/-- A quantifier is consumed with its atom. -/
theorem applyQuantifier_run {atom : AtomResult} (run : AtomRun ntMap parser (atom, parser'))
    {result : List Symbol × Parser} (applied : parser'.applyQuantifier depth atom = .ok result) :
    ItemRun ntMap parser result := by
  obtain ⟨tokens, e, parts, reads, compiles⟩ := run
  rw [Parser.applyQuantifier] at applied
  split at applied
  · cases applied
  · have shifted {token : Token} (known : parser'.peek = token) (solid : token ≠ .eof) :
        parser.tokens = tokens ++ [token] ++ parser'.advance.tokens := by
      rw [parts, Parser.peek_tokens known solid, append_assoc, singleton_append]
    split at applied
    case h_1 known =>
      cases applied
      exact ⟨_, _, shifted known nofun, .item reads .star, compiles.addStar⟩
    case h_2 known =>
      cases applied
      exact ⟨_, _, shifted known nofun, .item reads .plus, compiles.addPlus⟩
    case h_3 known =>
      cases applied
      exact ⟨_, _, shifted known nofun, .item reads .optional, compiles.addOptional⟩
    case h_4 =>
      cases applied
      have once := Reads.item reads .once
      rw [Quantifier.tokens, append_nil] at once
      exact ⟨tokens, e, parts, once, compiles⟩

theorem parseBodyInto_run (enough : 4 * parser.tokens.length + 4 ≤ fuel + 1)
    (loop : 4 * parser.tokens.length + 3 ≤ fuel → Ends (Parser.bodyLoop ntMap fuel lhs depth parser) (BodyRun ntMap lhs parser)) :
    Ends (Parser.parseBodyInto ntMap (fuel + 1) lhs depth parser) (BodyRun ntMap lhs parser) := by
  rw [Parser.parseBodyInto]
  split
  · exact .throw _
  · exact loop (by omega)

/-- A body is an alternative, or an alternative in front of a bar and a body. -/
theorem bodyLoop_run (enough : 4 * parser.tokens.length + 3 ≤ fuel + 1)
    (alternative : 4 * parser.tokens.length + 2 ≤ fuel →
      Ends (Parser.parseAlternative ntMap fuel depth [] parser) (SequenceRun ntMap parser []))
    (loop : ∀ parser', 4 * parser'.tokens.length + 3 ≤ fuel →
      Ends (Parser.bodyLoop ntMap fuel lhs depth parser') (BodyRun ntMap lhs parser')) :
    Ends (Parser.bodyLoop ntMap (fuel + 1) lhs depth parser) (BodyRun ntMap lhs parser) := by
  rw [Parser.bodyLoop]
  refine (alternative (by omega)).bind ?_
  rintro ⟨rhs, parser'⟩ ⟨tokens, breaks, e, rhs', same, parts, bar, reads, compiles⟩
  rw [nil_append] at same
  subst same
  dsimp only at parts bar compiles ⊢
  split
  case isTrue pipe =>
    have consumed : parser'.tokens = .pipe :: parser'.advance.tokens := Parser.peek_tokens pipe (by rintro ⟨⟩)
    obtain ⟨behind, skipped⟩ := skipNewlines_split parser'.advance.tokens
    refine (loop _ ?_).mono ?_
    · have shorter := congrArg List.length skipped
      have whole := congrArg List.length parts
      rw [consumed] at whole
      simp only [length_append, length_cons] at shorter whole
      change 4 * (skipNewlines parser'.advance.tokens).length + 3 ≤ fuel
      omega
    · rintro last ⟨tokens', e', parts', reads', fills⟩
      refine ⟨_, _, ?_, .alt breaks behind reads reads', compiles.alt fills⟩
      have rest : skipNewlines parser'.advance.tokens = tokens' ++ last.tokens := parts'
      rw [parts, consumed, skipped, rest, alt_shift]
  case isFalse other =>
    refine .pure ⟨tokens, e, ?_, .last reads, compiles.last⟩
    have none : breaks = 0 := by
      by_contra some
      exact other (bar some)
    rw [parts, none]
    rfl

/-- An alternative without an item. -/
theorem SequenceRun.stop : SequenceRun ntMap parser sequence (sequence, parser) :=
  ⟨[], 0, .empty, [], (append_nil sequence).symm, rfl, fun some => absurd rfl some, .empty, .empty⟩

theorem parseAlternative_run (enough : 4 * parser.tokens.length + 2 ≤ fuel + 1)
    (atom : 4 * parser.tokens.length + 1 ≤ fuel → Ends (Parser.parseAtom ntMap fuel depth parser) (AtomRun ntMap parser))
    (rest : ∀ sequence parser', 4 * parser'.tokens.length + 2 ≤ fuel →
      Ends (Parser.parseAlternative ntMap fuel depth sequence parser') (SequenceRun ntMap parser' sequence)) :
    Ends (Parser.parseAlternative ntMap (fuel + 1) depth sequence parser) (SequenceRun ntMap parser sequence) := by
  rw [Parser.parseAlternative]
  split
  · exact .pure .stop
  · exact .pure .stop
  · exact .pure .stop
  · split
    case isTrue bar =>
      obtain ⟨breaks, parts⟩ := skipNewlines_split parser.tokens
      exact .pure ⟨[], breaks, .empty, [], (append_nil sequence).symm, parts, fun _ => bar, .empty, .empty⟩
    case isFalse => exact .pure .stop
  · split
    · exact .pure .stop
    · refine (atom (by omega)).bind ?_
      rintro ⟨result, parser'⟩ run
      refine (Ends.lift fun result applied => applyQuantifier_run run applied).bind ?_
      rintro ⟨symbols, middle⟩ ⟨tokens, e, parts, reads, compiles⟩
      dsimp only at parts compiles ⊢
      have longer : 0 < tokens.length := by
        obtain ⟨token, tail, rfl, _⟩ := reads.item_opens
        exact Nat.succ_pos _
      have whole := congrArg List.length parts
      rw [length_append] at whole
      refine (rest _ middle (by omega)).mono ?_
      rintro ⟨last, later⟩ ⟨tokens', breaks, e', rhs, same, parts', bar, reads', compiles'⟩
      refine ⟨tokens ++ tokens', breaks, _, symbols ++ rhs, ?_, ?_, bar, .seq reads reads', compiles.seq compiles'⟩
      · rw [same, append_assoc]
      · rw [parts, parts', append_assoc]

theorem resolveNt_found {name : String} {id : NonTerminalId} (found : Parser.resolveNt ntMap name = .ok id) :
    ntMap.lookup name = some id := by
  rw [Parser.resolveNt] at found
  split at found
  · cases found
    assumption
  · cases found

theorem addClass_tokens (parser : Parser) (bytes : List UInt8) : (parser.addClass bytes).2.tokens = parser.tokens := by
  change (bytes.foldl _ (parser.allocSynthetic "gbnf_class").2).tokens = _
  rw [foldl_addRule]
  rfl

theorem parseAtom_run (enough : 4 * parser.tokens.length + 1 ≤ fuel + 1)
    (body : ∀ lhs depth parser', 4 * parser'.tokens.length + 4 ≤ fuel →
      Ends (Parser.parseBodyInto ntMap fuel lhs depth parser') (BodyRun ntMap lhs parser')) :
    Ends (Parser.parseAtom ntMap (fuel + 1) depth parser) (AtomRun ntMap parser) := by
  have consumed {token : Token} (known : parser.peek = token) (solid : token ≠ .eof) :
      parser.tokens = [token] ++ parser.advance.tokens := Parser.peek_tokens known solid
  rw [Parser.parseAtom]
  split
  · exact .throw _
  · split
    case h_1 bytes known => exact .pure ⟨_, _, consumed known (by rintro ⟨⟩), .literal, .literal⟩
    case h_2 bytes known =>
      have whole := consumed known (by rintro ⟨⟩)
      rw [← addClass_tokens parser.advance bytes] at whole
      exact .pure ⟨_, _, whole, .oneOf, .addClass parser.advance bytes⟩
    case h_3 name known =>
      refine (@Ends.lift _ _ (fun id => ntMap.lookup name = some id) _ fun id found => resolveNt_found found).bind
        fun id found => ?_
      exact .pure ⟨_, _, consumed known (by rintro ⟨⟩), .ref, .ref found⟩
    case h_4 known =>
      have whole := congrArg List.length (consumed known (by rintro ⟨⟩))
      rw [length_append, length_singleton] at whole
      change Ends (Parser.parseBodyInto ntMap fuel parser.grammar.ntCount (depth + 1)
        (parser.advance.allocSynthetic "gbnf_group").2 >>= _) _
      refine (body _ _ _ ?_).bind ?_
      · change 4 * parser.advance.tokens.length + 4 ≤ fuel
        omega
      · rintro parser' ⟨tokens, e, parts, reads, fills⟩
        refine (@Ends.lift _ _ (fun last => parser'.tokens = [.rParen] ++ last.tokens ∧ last.grammar = parser'.grammar) _
          fun last closed => ?_).bind ?_
        · rw [Parser.expect] at closed
          split at closed
          case isTrue bracket =>
            cases closed
            exact ⟨Parser.peek_tokens bracket (by rintro ⟨⟩), rfl⟩
          case isFalse => cases closed
        · rintro last ⟨behind, same⟩
          refine .pure ⟨_, _, ?_, .group reads, ?_⟩
          · have inside : parser.advance.tokens = tokens ++ parser'.tokens := parts
            rw [consumed known (by rintro ⟨⟩), inside, behind]
            change Token.lParen :: (tokens ++ ([.rParen] ++ last.tokens)) = .lParen :: (tokens ++ [.rParen] ++ last.tokens)
            rw [append_assoc]
          · change Compiles ntMap parser.grammar last.grammar _ _
            rw [same]
            exact fills.group
    case h_5 => exact .throw _

/-- Each call consumes its tokens, so that four calls for each token suffice. -/
theorem parse_run (fuel : Nat) : (∀ lhs depth parser, 4 * parser.tokens.length + 4 ≤ fuel →
      Ends (Parser.parseBodyInto ntMap fuel lhs depth parser) (BodyRun ntMap lhs parser)) ∧
    (∀ lhs depth parser, 4 * parser.tokens.length + 3 ≤ fuel →
      Ends (Parser.bodyLoop ntMap fuel lhs depth parser) (BodyRun ntMap lhs parser)) ∧
    (∀ depth sequence parser, 4 * parser.tokens.length + 2 ≤ fuel →
      Ends (Parser.parseAlternative ntMap fuel depth sequence parser) (SequenceRun ntMap parser sequence)) ∧
    ∀ depth parser, 4 * parser.tokens.length + 1 ≤ fuel →
      Ends (Parser.parseAtom ntMap fuel depth parser) (AtomRun ntMap parser) := by
  induction fuel with
  | zero => exact ⟨fun _ _ _ wrong => (nomatch wrong), fun _ _ _ wrong => (nomatch wrong), fun _ _ _ wrong => (nomatch wrong),
      fun _ _ wrong => (nomatch wrong)⟩
  | succ fuel ih =>
      obtain ⟨body, loop, alternative, atom⟩ := ih
      refine ⟨fun lhs depth parser enough => ?_, fun lhs depth parser enough => ?_,
        fun depth sequence parser enough => ?_, fun depth parser enough => ?_⟩
      · exact parseBodyInto_run enough (loop lhs depth parser)
      · exact bodyLoop_run enough (alternative depth [] parser) (loop lhs depth)
      · exact parseAlternative_run enough (atom depth parser) (alternative depth)
      · exact parseAtom_run enough body

/-- One definition was read, and its rules are in the grammar. -/
def RuleRun (ntMap : List (String × NonTerminalId)) (parser parser' : Parser) : Prop :=
  ∃ name breaks tokens e id, parser.tokens = .ident name :: (newlines breaks ++ .assign :: (tokens ++ parser'.tokens)) ∧
    Reads .body tokens e ∧ ntMap.lookup name = some id ∧ Fills ntMap id parser.grammar parser'.grammar e

theorem parseOneRule_run (some : parser.peek ≠ .eof) :
    Ends (Parser.parseOneRule ntMap (4 * parser.tokens.length + 4) parser) (RuleRun ntMap parser) := by
  rw [Parser.parseOneRule]
  split
  case h_1 none => exact absurd none some
  case h_2 name known =>
    have consumed := Parser.peek_tokens known nofun
    obtain ⟨breaks, skipped⟩ := skipNewlines_split parser.advance.tokens
    refine (@Ends.lift _ _ (fun last => parser.tokens = .ident name :: (newlines breaks ++ .assign :: last.tokens) ∧
      last.grammar = parser.grammar) _ fun last assigned => ?_).bind ?_
    · rw [Parser.expect] at assigned
      split at assigned
      case isTrue assign =>
        cases assigned
        refine ⟨?_, rfl⟩
        have behind := Parser.peek_tokens assign nofun
        rw [consumed, skipped]
        exact congrArg (fun rest => Token.ident name :: (newlines breaks ++ rest)) behind
      case isFalse => cases assigned
    · rintro last ⟨parts, same⟩
      refine (@Ends.lift _ _ (fun id => ntMap.lookup name = Option.some id) _ fun id found => resolveNt_found found).bind
        fun id found => ?_
      have whole := congrArg List.length parts
      simp only [length_cons, length_append] at whole
      refine ((parse_run _).1 id 0 { last with defined := id :: last.defined } ?_).mono ?_
      · change 4 * last.tokens.length + 4 ≤ _
        omega
      · rintro later ⟨tokens, e, behind, reads, fills⟩
        have behind : last.tokens = tokens ++ later.tokens := behind
        have fills : Fills ntMap id last.grammar later.grammar e := fills
        rw [same] at fills
        exact ⟨name, breaks, tokens, e, id, by rw [parts, behind], reads, found, fills⟩
  case h_3 => exact .throw _

/-- The rules were read up to the end, and the grammar stands for their definitions. -/
structure RulesRun (ntMap : List (String × NonTerminalId)) (parser parser' : Parser) (tokens : List Token)
    (defs : RuleDefs) : Prop where
  parts : parser.tokens = tokens ++ parser'.tokens
  ended : parser'.peek = .eof
  reads : ReadsRules tokens defs
  grows : Grows parser.grammar parser'.grammar
  defined : ∀ name body, (name, body) ∈ defs → ∃ nt, ntMap.lookup name = some nt ∧ Defined ntMap parser'.grammar.rules nt body
  sound : ∀ known meaning, (∀ definition ∈ defs, definition ∈ known) → Sound ntMap known parser.grammar meaning →
    ∃ later, meaning <+: later ∧ Sound ntMap known parser'.grammar later

theorem ReadsRules.behind {tokens : List Token} {defs : RuleDefs} (reads : ReadsRules tokens defs) (breaks : Nat) :
    ReadsRules (newlines breaks ++ tokens) defs := by
  have joined (count : Nat) : newlines breaks ++ newlines count = newlines (breaks + count) :=
    replicate_append_replicate
  cases reads with
  | none count =>
      rw [joined]
      exact .none _
  | rule before behind inner others =>
      rw [← append_assoc, joined]
      exact .rule _ behind inner others

theorem Defined.mono {rules rules' : List Rule} {e : Expr} (defined : Defined ntMap rules lhs e)
    (kept : ∀ rule ∈ rules, rule ∈ rules') : Defined ntMap rules' lhs e := by
  obtain ⟨choices, built, each⟩ := defined
  exact ⟨choices, built.mono kept, fun rhs member => kept _ (each rhs member)⟩

theorem RulesRun.cons {middle : Parser} {tokens : List Token} {defs : RuleDefs} (first : RuleRun ntMap parser middle)
    (rest : RulesRun ntMap middle.skipNewlines parser' tokens defs) :
    ∃ tokens defs, RulesRun ntMap parser parser' tokens defs := by
  obtain ⟨name, breaks, body, e, id, parts, reads, found, fills⟩ := first
  obtain ⟨between, skipped⟩ := skipNewlines_split middle.tokens
  have behind : skipNewlines middle.tokens = tokens ++ parser'.tokens := rest.parts
  have grows : Grows middle.grammar parser'.grammar := rest.grows
  have whole := @ReadsRules.rule name body _ e defs 0 breaks reads (rest.reads.behind between)
  refine ⟨_, _, ⟨?_, rest.ended, whole, fills.grows.trans grows, ?_, ?_⟩⟩
  · rw [parts, skipped, behind]
    simp [newlines]
  · intro other body member
    rcases mem_cons.mp member with same | member
    · obtain ⟨rfl, rfl⟩ := Prod.mk.inj same
      exact ⟨id, found, fills.defined.mono grows.kept⟩
    · exact rest.defined other body member
  · intro known meaning listed sound
    obtain ⟨between, grown, sound⟩ := fills.sound known meaning (.ref name) sound (sound.names name id found)
      fun word inner => .ref (listed _ mem_cons_self) inner
    obtain ⟨later, grown', sound⟩ := rest.sound known between
      (fun definition member => listed definition (mem_cons_of_mem _ member)) sound
    exact ⟨later, grown.trans grown', sound⟩

theorem parseRules_run (fuel : Nat) : ∀ parser : Parser, parser.tokens.length + 1 ≤ fuel →
    Ends (Parser.parseRules ntMap fuel parser) fun parser' => ∃ tokens defs, RulesRun ntMap parser parser' tokens defs := by
  induction fuel with
  | zero => exact fun parser wrong => (nomatch wrong)
  | succ fuel ih =>
      intro parser enough
      rw [Parser.parseRules]
      split
      case isTrue ended =>
        refine .pure ⟨[], [], rfl, ended, .none 0, .refl _, nofun, fun known meaning _ sound => ?_⟩
        exact ⟨meaning, prefix_refl meaning, sound⟩
      case isFalse some =>
        refine (parseOneRule_run some).bind fun middle first => ?_
        have shorter : middle.skipNewlines.tokens.length + 1 ≤ fuel := by
          obtain ⟨name, breaks, body, e, id, parts, _⟩ := first
          obtain ⟨between, skipped⟩ := skipNewlines_split middle.tokens
          have whole := congrArg List.length parts
          have behind := congrArg List.length skipped
          simp only [length_cons, length_append] at whole behind
          change (skipNewlines middle.tokens).length + 1 ≤ fuel
          omega
        refine (ih middle.skipNewlines shorter).mono ?_
        rintro last ⟨tokens, defs, rest⟩
        exact RulesRun.cons first rest

end Pictor.Gbnf
