import Pictor.Proof.Grammar.GbnfRun

namespace Pictor.Gbnf
open List

open Outcome

section Lexing

variable {lexer lexer' : Lexer} {fuel : Nat}

namespace Lexer

theorem advance_rest (lexer : Lexer) : lexer.advance.rest = lexer.rest.tail := by
  rw [advance]
  split
  case h_1 empty => rw [empty, tail_nil]
  case h_2 ch rest parts =>
    rw [parts, tail_cons]
    split <;> rfl

variable {ch : Char} {byte : UInt8}

/-- A character that is seen is there. -/
theorem peek_rest (known : lexer.peek = some ch) : lexer.rest.length = lexer.advance.rest.length + 1 := by
  rw [advance_rest]
  cases parts : lexer.rest with
  | nil =>
      rw [peek, parts] at known
      cases known
  | cons first rest => rw [length_cons, tail_cons]

theorem parseHexEscape_rest (read : lexer.parseHexEscape = .ok (byte, lexer')) :
    lexer'.rest.length < lexer.rest.length := by
  rw [parseHexEscape] at read
  split at read
  case h_1 hi lo rest parts =>
    split at read
    case h_1 =>
      cases read
      rw [advance_rest, advance_rest, parts, tail_cons, tail_cons, length_cons, length_cons]
      omega
    case h_2 => cases read
  case h_2 => cases read

theorem parseEscapeByte_rest (read : lexer.parseEscapeByte = .ok (byte, lexer')) :
    lexer'.rest.length < lexer.rest.length := by
  rw [parseEscapeByte] at read
  split at read
  case h_1 => cases read
  case h_2 ch known =>
    have shorter := peek_rest known
    split at read
    · have rest := parseHexEscape_rest read
      omega
    · split at read
      · cases read
        omega
      · cases read

theorem parseStringLit_rest (fuel : Nat) : ∀ (lexer : Lexer) (bytes : List UInt8), lexer.rest.length + 1 ≤ fuel →
    Ends (parseStringLit fuel lexer bytes) fun result => result.2.rest.length < lexer.rest.length := by
  induction fuel with
  | zero => exact fun lexer bytes wrong => (nomatch wrong)
  | succ fuel ih =>
      intro lexer bytes enough
      rw [parseStringLit]
      split
      case h_1 => exact .throw _
      case h_2 ch known =>
        have shorter := peek_rest known
        split
        · exact .pure (by dsimp only; omega)
        · split
          · refine (Ends.lift fun result read => parseEscapeByte_rest read).bind ?_
            rintro ⟨byte, lexer'⟩ rest
            dsimp only at rest ⊢
            exact (ih lexer' _ (by omega)).mono fun result inside => by omega
          · exact (ih lexer.advance _ (by omega)).mono fun result inside => by omega

theorem parseClassSingleByte_rest (read : lexer.parseClassSingleByte = .ok (byte, lexer')) :
    lexer'.rest.length < lexer.rest.length := by
  rw [parseClassSingleByte] at read
  split at read
  case h_1 => cases read
  case h_2 ch known =>
    have shorter := peek_rest known
    split at read
    · cases read
    · split at read
      · have rest := parseEscapeByte_rest read
        omega
      · obtain ⟨byte', _, same⟩ := Outcome.bind_ok read
        cases same
        omega

theorem classMember_rest {set set' : List UInt8} (read : classMember set byte lexer = .ok (set', lexer')) :
    lexer'.rest.length ≤ lexer.rest.length := by
  rw [classMember] at read
  split at read
  case isTrue range =>
    obtain ⟨⟨last, middle⟩, read, same⟩ := Outcome.bind_ok read
    cases same
    have shorter := peek_rest range.1
    have rest := parseClassSingleByte_rest read
    omega
  case isFalse =>
    cases read
    rfl

theorem classLoop_rest (fuel : Nat) : ∀ (lexer : Lexer) (set : List UInt8), lexer.rest.length + 1 ≤ fuel →
    Ends (classLoop fuel lexer set) fun result => result.2.rest.length < lexer.rest.length := by
  induction fuel with
  | zero => exact fun lexer set wrong => (nomatch wrong)
  | succ fuel ih =>
      intro lexer set enough
      rw [classLoop]
      split
      case h_1 => exact .throw _
      case h_2 ch known =>
        have shorter := peek_rest known
        split
        · exact .pure (by dsimp only; omega)
        · split
          · refine (Ends.lift fun result read => parseEscapeByte_rest read).bind ?_
            rintro ⟨byte, middle⟩ rest
            refine (Ends.lift fun result read => classMember_rest read).bind ?_
            rintro ⟨set', lexer'⟩ rest'
            dsimp only at rest rest' ⊢
            exact (ih lexer' _ (by omega)).mono fun result inside => by omega
          · refine (@Ends.lift _ _ (fun _ => True) _ fun _ _ => trivial).bind fun byte _ => ?_
            refine (Ends.lift fun result read => classMember_rest read).bind ?_
            rintro ⟨set', lexer'⟩ rest'
            dsimp only at rest' ⊢
            exact (ih lexer' _ (by omega)).mono fun result inside => by omega

theorem parseCharClass_rest (enough : lexer.rest.length + 1 ≤ fuel) :
    Ends (parseCharClass fuel lexer) fun result => result.2.rest.length ≤ lexer.rest.length := by
  rw [parseCharClass]
  have start : (if lexer.peek = some '^' then lexer.advance else lexer).rest.length ≤ lexer.rest.length := by
    split
    · rw [advance_rest, length_tail]
      omega
    · exact le_refl _
  refine (classLoop_rest fuel _ [] (by omega)).bind ?_
  rintro ⟨set, lexer'⟩ rest
  dsimp only at rest
  exact .pure (by dsimp only; omega)

theorem skipWhile_rest (skips : Char → Bool) (lexer : Lexer) : (lexer.skipWhile skips).rest.length ≤ lexer.rest.length :=
  (dropWhile_suffix _).length_le

/-- A skip that starts moves on. -/
theorem skipWhile_less {skips : Char → Bool} {ch : Char} {behind : List Char} (parts : lexer.rest = ch :: behind)
    (skipped : skips ch = true) : (lexer.skipWhile skips).rest.length < lexer.rest.length := by
  change (lexer.rest.dropWhile skips).length < lexer.rest.length
  rw [parts, dropWhile_cons_of_pos skipped, length_cons]
  have shorter := (dropWhile_suffix skips (l := behind)).length_le
  omega

/-- The only end of a stream of tokens is its last token. -/
def Closed (tokens : List Token) (result : List Token) : Prop := ∃ front, result = tokens ++ (front ++ [.eof]) ∧ .eof ∉ front

theorem Closed.cons {tokens result : List Token} {token : Token} (solid : .eof ≠ token)
    (closed : Closed (tokens ++ [token]) result) : Closed tokens result := by
  obtain ⟨front, rfl, none⟩ := closed
  refine ⟨token :: front, ?_, ?_⟩
  · rw [append_assoc, singleton_append, cons_append]
  · rw [mem_cons, not_or]
    exact ⟨solid, none⟩

theorem operatorOf_solid {token : Token} (known : operatorOf ch = some token) : .eof ≠ token := by
  unfold operatorOf at known
  split at known <;> cases known <;> exact nofun

theorem tokenise_ends (fuel : Nat) : ∀ (lexer : Lexer) (tokens : List Token), lexer.rest.length + 1 ≤ fuel →
    Ends (tokenise fuel lexer tokens) (Closed tokens) := by
  induction fuel with
  | zero => exact fun lexer tokens wrong => (nomatch wrong)
  | succ fuel ih =>
      intro lexer tokens enough
      rw [tokenise]
      have spaces := skipWhile_rest (fun ch => ch = ' ' ∨ ch = '\t' ∨ ch = '\r') lexer
      change lexer.skipSpaces.rest.length ≤ _ at spaces
      generalize lexer.skipSpaces = lexer' at spaces ⊢
      dsimp only
      split
      case h_1 => exact .pure ⟨[], by rw [nil_append], not_mem_nil⟩
      case h_2 ch behind parts =>
        have whole := congrArg List.length parts
        have tail := congrArg List.length (advance_rest lexer')
        rw [length_tail] at tail
        rw [length_cons] at whole
        split
        case h_1 token known => exact (ih _ _ (by omega)).mono fun result => .cons (operatorOf_solid known)
        case h_2 =>
          split
          case isTrue comment =>
            have less := @skipWhile_less lexer' (fun ch => ch ≠ '\n') ch behind parts (by subst comment; rfl)
            exact ih _ _ (by omega)
          case isFalse =>
            split
            · split
              case h_1 rest =>
                refine (ih _ _ ?_).mono fun result => .cons nofun
                simp only [length_cons] at whole
                change rest.length + 1 ≤ fuel
                omega
              case h_2 => exact .throw _
            · split
              · refine (parseStringLit_rest _ lexer'.advance [] (by omega)).bind ?_
                rintro ⟨bytes, last⟩ rest
                dsimp only at rest ⊢
                exact (ih last _ (by omega)).mono fun result => .cons nofun
              · split
                · refine (@parseCharClass_rest lexer'.advance _ (by omega)).bind ?_
                  rintro ⟨bytes, last⟩ rest
                  dsimp only at rest ⊢
                  exact (ih last _ (by omega)).mono fun result => .cons nofun
                · split
                  case isTrue starts =>
                    have continues : continuesIdent ch = true := by
                      rw [startsIdent, Bool.or_eq_true] at starts
                      rw [continuesIdent, Char.isAlphanum]
                      rcases starts with letter | score
                      · rw [letter]
                        rfl
                      · rw [score, Bool.or_true]
                        rfl
                    have less := skipWhile_less parts continues
                    exact (ih _ _ (by omega)).mono fun result => .cons nofun
                  case isFalse => exact .throw _

end Lexer

end Lexing

theorem not_mem_newlines (count : Nat) : .eof ∉ newlines count := fun member => nomatch eq_of_mem_replicate member

theorem Reads.noEof {level : Level} {e : Expr} (reads : Reads level tokens e) : .eof ∉ tokens := by
  induction reads with
  | literal | oneOf | ref | empty => simp
  | group _ ih => simp [ih]
  | item _ quantifier ih => cases quantifier <;> simp [Quantifier.tokens, ih]
  | seq _ _ ih ih' => simp [ih, ih']
  | last _ ih => exact ih
  | alt before behind _ _ ih ih' => simp [ih, ih', not_mem_newlines]

theorem ReadsRules.noEof (reads : ReadsRules tokens defs) : .eof ∉ tokens := by
  induction reads with
  | none breaks => exact not_mem_newlines breaks
  | rule before behind inner _ ih => simp [ih, inner.noEof, not_mem_newlines]

section Names

variable {names : List String} {grammar : Grammar}

theorem allocNames_rules : (allocNames names grammar).2.rules = grammar.rules ∧
    (allocNames names grammar).2.ntCount = grammar.ntCount + names.length := by
  induction names generalizing grammar with
  | nil => exact ⟨rfl, rfl⟩
  | cons name names ih =>
      obtain ⟨rules, count⟩ := @ih (grammar.allocNt name).2
      refine ⟨rules, count.trans ?_⟩
      rw [length_cons]
      change grammar.ntCount + 1 + names.length = _
      omega

/-- The first non-terminals stand for the names. -/
theorem allocNames_known {meaning : List Expr} (sized : meaning.length = grammar.ntCount) {name : String}
    {id : NonTerminalId} (known : (allocNames names grammar).1.lookup name = some id) :
    (meaning ++ names.map Ebnf.ref)[id]? = some (.ref name) := by
  induction names generalizing grammar meaning with
  | nil => cases known
  | cons first names ih =>
      change ((first, grammar.ntCount) :: (allocNames names (grammar.allocNt first).2).1).lookup name = some id at known
      rw [lookup_cons] at known
      by_cases same : name = first
      · rw [beq_iff_eq.mpr same] at known
        cases known
        rw [← sized, getElem?_append_right (le_refl _), Nat.sub_self, same]
        rfl
      · rw [beq_eq_false_iff_ne.mpr same] at known
        have grown : (meaning ++ [Ebnf.ref first]).length = (grammar.allocNt first).2.ntCount := by
          rw [length_append, sized]
          rfl
        have found := ih grown known
        rwa [append_assoc] at found

theorem allocNames_found {name : String} (member : name ∈ names) :
    ∃ id, (allocNames names grammar).1.lookup name = some id := by
  induction names generalizing grammar with
  | nil => cases member
  | cons first names ih =>
      change ∃ id, ((first, grammar.ntCount) :: (allocNames names (grammar.allocNt first).2).1).lookup name = some id
      rw [lookup_cons]
      by_cases same : name = first
      · rw [beq_iff_eq.mpr same]
        exact ⟨_, rfl⟩
      · rw [beq_eq_false_iff_ne.mpr same]
        exact ih ((mem_cons.mp member).resolve_left same)

end Names

variable {ntMap : List (String × NonTerminalId)} {front : List Token} {tokens : List Token} {defs : RuleDefs}
  {parser : Parser}

/-- The run from the start reads all tokens but the last. -/
theorem parseAll_run (tokens : parser.tokens = front ++ [.eof]) (inside : .eof ∉ front) :
    Ends (parser.parseAll ntMap) fun parser' =>
      ∃ part defs, ReadsRules front defs ∧ RulesRun ntMap parser.skipNewlines parser' part defs := by
  obtain ⟨breaks, skipped⟩ := skipNewlines_split parser.tokens
  have whole := congrArg List.length skipped
  rw [length_append] at whole
  refine (parseRules_run _ parser.skipNewlines ?_).mono ?_
  · change (skipNewlines parser.tokens).length + 1 ≤ parser.tokens.length + 1
    omega
  · rintro parser' ⟨part, defs, run⟩
    refine ⟨part, defs, ?_, run⟩
    have parts : skipNewlines parser.tokens = part ++ parser'.tokens := run.parts
    rw [tokens, ← tokens, parts, tokens, ← append_assoc] at skipped
    have reads := run.reads.behind breaks
    have ended := run.ended
    rw [Parser.peek] at ended
    cases rest : parser'.tokens with
    | nil =>
        rw [rest, append_nil] at skipped
        exact absurd (skipped ▸ mem_append_right front (mem_singleton_self Token.eof)) reads.noEof
    | cons token rest' =>
        rw [rest, head?_cons, Option.getD_some] at ended
        rw [rest, ended] at skipped
        obtain ⟨same, _⟩ := (append_cons_inj_of_notMem inside not_mem_nil).mp skipped
        rw [same]
        exact reads

/-- The rules of a run from the names derive what their definitions match. -/
theorem RulesRun.generates {parser' : Parser} {part : List Token} {names : List String} {root : NonTerminalId}
    (run : RulesRun (allocNames names (Grammar.new 0)).1 parser parser' part defs)
    (start : parser.grammar = { (allocNames names (Grammar.new 0)).2 with start := root })
    (known : (allocNames names (Grammar.new 0)).1.lookup "root" = some root) (word : List UInt8) :
    parser'.grammar.Generates word ↔ (Ebnf.ref "root").Matches defs word := by
  obtain ⟨rules, count⟩ := @allocNames_rules names (Grammar.new 0)
  have first : Sound (allocNames names (Grammar.new 0)).1 defs parser.grammar (names.map Ebnf.ref) := by
    rw [start]
    refine ⟨?_, fun name id found => ?_, fun rule member => ?_⟩
    · rw [length_map, count]
      exact (Nat.zero_add _).symm
    · exact @allocNames_known names (Grammar.new 0) [] rfl name id found
    · have member : rule ∈ (allocNames names (Grammar.new 0)).2.rules := member
      rw [rules] at member
      cases member
  obtain ⟨later, _, sound⟩ := run.sound defs _ (fun _ member => member) first
  have rooted : parser'.grammar.start = root := by
    rw [run.grows.start, start]
  rw [Grammar.Generates, rooted]
  constructor
  · intro derived
    obtain ⟨e, found, inner⟩ := spells_single.mp (sound.derives derived)
    rw [sound.names "root" root known] at found
    cases found
    exact inner
  · intro inner
    obtain ⟨rhs, member, derived⟩ := Built.derives run.defined inner (.ref known)
    rwa [mem_singleton.mp member] at derived

/-- The grammar of a stream of tokens derives what its rules match. -/
theorem parseTokens_run (inside : .eof ∉ front) : Ends (parseTokens (front ++ [.eof])) fun grammar =>
    (∃ defs, ReadsRules front defs) ∧ ∀ defs, ReadsRules front defs →
      ∀ word, grammar.Generates word ↔ (Ebnf.ref "root").Matches defs word := by
  rw [parseTokens]
  split
  · exact .throw _
  · dsimp only
    split
    · exact .throw _
    · split
      · exact .throw _
      case isFalse present =>
        rw [not_not] at present
        generalize collectRuleNames (front ++ [.eof]) [] = names at present
        obtain ⟨root, known⟩ := @allocNames_found names (Grammar.new 0) "root" present
        refine (parseAll_run rfl inside).bind ?_
        rintro parser' ⟨part, defs, reads, run⟩
        split
        · exact .throw _
        · refine .pure ⟨⟨defs, reads⟩, fun defs' reads' word => ?_⟩
          rw [reads'.unique reads rfl]
          refine run.generates ?_ known word
          rw [known]
          rfl

/-- Each accepted text reads as one extended grammar, and the grammar of the text generates what the rule for the root
matches. -/
theorem parseGbnf_exact (src : List Char) : Ends (parseGbnf src) fun grammar => ∃ tokens,
    (Lexer.tokenise (src.length + 1) (Lexer.new src) []).run = some (.ok (tokens ++ [.eof])) ∧
      (∃ defs, ReadsRules tokens defs) ∧ ∀ defs, ReadsRules tokens defs →
        ∀ word, grammar.Generates word ↔ (Ebnf.ref "root").Matches defs word := by
  rw [parseGbnf]
  refine (Lexer.tokenise_ends (src.length + 1) (Lexer.new src) [] (le_refl _)).withRun.bind ?_
  rintro _ ⟨run, front, rfl, inside⟩
  rw [nil_append] at run ⊢
  refine (parseTokens_run inside).mono ?_
  rintro grammar ⟨reads, exact_⟩
  exact ⟨front, run, reads, exact_⟩

end Pictor.Gbnf
