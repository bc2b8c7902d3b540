import Pictor.Construction.Grammar.GbnfParser
import Pictor.Library.Ebnf

namespace Pictor.Gbnf
open List

open Grammar

abbrev Expr := Ebnf String UInt8

abbrev RuleDefs := Definitions String UInt8

/-- The non-terminals of a sequence stand for expressions. -/
inductive Spells (defs : RuleDefs) (meaning : List Expr) : List Symbol → List UInt8 → Prop
  | nil : Spells defs meaning [] []
  | terminal {bytes rest word} (behind : Spells defs meaning rest word) :
      Spells defs meaning (.terminal bytes :: rest) (bytes ++ word)
  | nonTerminal {id e rest u v} (known : meaning[id]? = some e) (first : e.Matches defs u)
      (behind : Spells defs meaning rest v) : Spells defs meaning (.nonTerminal id :: rest) (u ++ v)

variable {defs : RuleDefs} {meaning later : List Expr} {e e' : Expr} {rhs rhs' : List Symbol} {word : List UInt8}

theorem spells_append : Spells defs meaning (rhs ++ rhs') word ↔
    ∃ u v, word = u ++ v ∧ Spells defs meaning rhs u ∧ Spells defs meaning rhs' v := by
  constructor
  · intro spells
    induction rhs generalizing word with
    | nil => exact ⟨[], word, rfl, .nil, spells⟩
    | cons symbol rhs ih =>
        cases spells with
        | terminal behind =>
            obtain ⟨u, v, rfl, first, rest⟩ := ih behind
            exact ⟨_, v, (append_assoc ..).symm, .terminal first, rest⟩
        | nonTerminal known inner behind =>
            obtain ⟨u, v, rfl, first, rest⟩ := ih behind
            exact ⟨_, v, (append_assoc ..).symm, .nonTerminal known inner first, rest⟩
  · rintro ⟨u, v, rfl, first, rest⟩
    induction first with
    | nil => exact rest
    | terminal _ ih =>
        rw [append_assoc]
        exact .terminal ih
    | nonTerminal known inner _ ih =>
        rw [append_assoc]
        exact .nonTerminal known inner ih

theorem spells_single {id : NonTerminalId} : Spells defs meaning [.nonTerminal id] word ↔
    ∃ e, meaning[id]? = some e ∧ e.Matches defs word := by
  constructor
  · intro spells
    cases spells with
    | nonTerminal known first behind =>
        cases behind
        rw [append_nil]
        exact ⟨_, known, first⟩
  · rintro ⟨e, known, inner⟩
    have spells := Spells.nonTerminal known inner Spells.nil
    rwa [append_nil] at spells

theorem spells_bytes {bytes : List UInt8} :
    Spells defs meaning (bytes.map fun byte => .terminal [byte]) word ↔ word = bytes := by
  induction bytes generalizing word with
  | nil =>
      constructor
      · rintro ⟨⟩
        rfl
      · rintro rfl
        exact .nil
  | cons byte bytes ih =>
      constructor
      · intro spells
        cases spells with
        | terminal behind => rw [ih.mp behind, singleton_append]
      · rintro rfl
        exact .terminal (ih.mpr rfl)

theorem prefix_known {id : NonTerminalId} (grown : meaning <+: later) (known : meaning[id]? = some e) :
    later[id]? = some e := by
  obtain ⟨tail, rfl⟩ := grown
  rw [getElem?_append_left (List.getElem?_eq_some_iff.mp known).1, known]

/-- Under all later meanings, the sequence stands for words of the expression. -/
def Means (defs : RuleDefs) (meaning : List Expr) (rhs : List Symbol) (e : Expr) : Prop :=
  ∀ later, meaning <+: later → ∀ word, Spells defs later rhs word → e.Matches defs word

theorem Means.mono (means : Means defs meaning rhs e) (grown : meaning <+: later) : Means defs later rhs e :=
  fun last grown' => means last (grown.trans grown')

theorem Means.weaken (means : Means defs meaning rhs e) (within : ∀ word, e.Matches defs word → e'.Matches defs word) :
    Means defs meaning rhs e' := fun later grown word spells => within word (means later grown word spells)

theorem Means.empty : Means defs meaning [] .empty := by
  intro later _ word spells
  cases spells
  exact .empty

theorem Means.literal {bytes : List UInt8} : Means defs meaning (bytes.map fun byte => .terminal [byte]) (.literal bytes) := by
  intro later _ word spells
  rw [spells_bytes.mp spells]
  exact .literal

theorem Means.single {id : NonTerminalId} (known : meaning[id]? = some e) : Means defs meaning [.nonTerminal id] e := by
  intro later grown word spells
  obtain ⟨other, known', inner⟩ := spells_single.mp spells
  rw [prefix_known grown known] at known'
  cases known'
  exact inner

theorem Means.seq (first : Means defs meaning rhs e) (second : Means defs meaning rhs' e') :
    Means defs meaning (rhs ++ rhs') (.seq e e') := by
  intro later grown word spells
  obtain ⟨u, v, rfl, front, back⟩ := spells_append.mp spells
  exact .seq (first later grown u front) (second later grown v back)

/-- Each rule of the grammar stands for words of the expression of its left-hand side. -/
structure Sound (ntMap : List (String × NonTerminalId)) (defs : RuleDefs) (grammar : Grammar) (meaning : List Expr) :
    Prop where
  length : meaning.length = grammar.ntCount
  names : ∀ name id, ntMap.lookup name = some id → meaning[id]? = some (.ref name)
  rules : ∀ rule ∈ grammar.rules, ∃ e, meaning[rule.lhs]? = some e ∧ Means defs meaning rule.rhs e

variable {ntMap : List (String × NonTerminalId)} {grammar : Grammar} {lhs : NonTerminalId}

variable (sound : Sound ntMap defs grammar meaning)
include sound

theorem Sound.fresh (e : Expr) : (meaning ++ [e])[grammar.ntCount]? = some e := by
  rw [← sound.length, getElem?_concat_length]

theorem Sound.allocNt (name : String) (e : Expr) : Sound ntMap defs (grammar.allocNt name).2 (meaning ++ [e]) where
  length := by
    rw [length_append, length_singleton, sound.length]
    rfl
  names name id known := prefix_known (List.prefix_append ..) (sound.names name id known)
  rules rule member := by
    obtain ⟨other, known, means⟩ := sound.rules rule member
    exact ⟨other, prefix_known (List.prefix_append ..) known, means.mono (List.prefix_append ..)⟩

theorem Sound.addRule (known : meaning[lhs]? = some e) (means : Means defs meaning rhs e) :
    Sound ntMap defs (grammar.addRule ⟨lhs, rhs⟩) meaning where
  length := sound.length
  names := sound.names
  rules rule member := by
    rcases mem_append.mp member with old | new
    · exact sound.rules rule old
    · cases mem_singleton.mp new
      exact ⟨e, known, means⟩

/-- What the grammar derives is what the meanings say. -/
theorem Sound.derives {symbols : List Symbol} (derived : Derives grammar symbols word) :
    Spells defs meaning symbols word := by
  induction derived with
  | nil => exact .nil
  | terminal _ ih => exact .terminal ih
  | @nonTerminal rule rest first second member _ _ inner behind =>
      obtain ⟨e, known, means⟩ := sound.rules rule member
      exact .nonTerminal known (means meaning (prefix_refl meaning) first inner) behind

omit sound

/-- The choices of an expression, and the rules of its non-terminals. -/
inductive Built (ntMap : List (String × NonTerminalId)) (rules : List Rule) : Expr → List (List Symbol) → Prop
  | empty : Built ntMap rules .empty [[]]
  | literal {bytes} : Built ntMap rules (.literal bytes) [bytes.map fun byte => .terminal [byte]]
  | oneOf {bytes nt} (each : ∀ byte ∈ bytes, ⟨nt, [.terminal [byte]]⟩ ∈ rules) :
      Built ntMap rules (.oneOf bytes) [[.nonTerminal nt]]
  | ref {name nt} (known : ntMap.lookup name = some nt) : Built ntMap rules (.ref name) [[.nonTerminal nt]]
  | group {body choices nt} (inner : Built ntMap rules body choices) (each : ∀ rhs ∈ choices, ⟨nt, rhs⟩ ∈ rules) :
      Built ntMap rules (.group body) [[.nonTerminal nt]]
  | optional {body rhs nt} (inner : Built ntMap rules body [rhs]) (none : ⟨nt, []⟩ ∈ rules) (some : ⟨nt, rhs⟩ ∈ rules) :
      Built ntMap rules (.optional body) [[.nonTerminal nt]]
  | star {body rhs nt} (inner : Built ntMap rules body [rhs]) (none : ⟨nt, []⟩ ∈ rules)
      (more : ⟨nt, rhs ++ [.nonTerminal nt]⟩ ∈ rules) : Built ntMap rules (.star body) [[.nonTerminal nt]]
  | plus {body rhs nt star} (inner : Built ntMap rules body [rhs])
      (rest : Built ntMap rules (.star body) [[.nonTerminal star]])
      (more : ⟨nt, rhs ++ [.nonTerminal star]⟩ ∈ rules) : Built ntMap rules (.plus body) [[.nonTerminal nt]]
  | seq {first second rhs rhs'} (left : Built ntMap rules first [rhs]) (right : Built ntMap rules second [rhs']) :
      Built ntMap rules (.seq first second) [rhs ++ rhs']
  | alt {first second rhs choices} (left : Built ntMap rules first [rhs]) (right : Built ntMap rules second choices) :
      Built ntMap rules (.alt first second) (rhs :: choices)

variable {rules rules' : List Rule} {choices : List (List Symbol)}

theorem Built.mono (built : Built ntMap rules e choices) (kept : ∀ rule ∈ rules, rule ∈ rules') :
    Built ntMap rules' e choices := by
  induction built with
  | empty => exact .empty
  | literal => exact .literal
  | oneOf each => exact .oneOf fun byte member => kept _ (each byte member)
  | ref known => exact .ref known
  | group _ each ih => exact .group ih fun rhs member => kept _ (each rhs member)
  | optional _ none some ih => exact .optional ih (kept _ none) (kept _ some)
  | star _ none more ih => exact .star ih (kept _ none) (kept _ more)
  | plus _ _ more ih ih' => exact .plus ih ih' (kept _ more)
  | seq _ _ ih ih' => exact .seq ih ih'
  | alt _ _ ih ih' => exact .alt ih ih'

/-- The rules of a left-hand side are built for an expression. -/
def Defined (ntMap : List (String × NonTerminalId)) (rules : List Rule) (lhs : NonTerminalId) (e : Expr) : Prop :=
  ∃ choices, Built ntMap rules e choices ∧ ∀ rhs ∈ choices, ⟨lhs, rhs⟩ ∈ rules

theorem derives_bytes (bytes : List UInt8) : Derives grammar (bytes.map fun byte => .terminal [byte]) bytes := by
  induction bytes with
  | nil => exact .nil
  | cons byte bytes ih => exact .terminal ih

/-- What an expression matches is derived by one of its choices. -/
theorem Built.derives (complete : ∀ name body, (name, body) ∈ defs →
      ∃ nt, ntMap.lookup name = some nt ∧ Defined ntMap grammar.rules nt body)
    (inner : e.Matches defs word) (built : Built ntMap grammar.rules e choices) :
    ∃ rhs ∈ choices, Derives grammar rhs word := by
  have only {rhs : List Symbol} {word : List UInt8} (found : ∃ other ∈ [rhs], Derives grammar other word) :
      Derives grammar rhs word := by
    obtain ⟨other, member, derived⟩ := found
    rwa [mem_singleton.mp member] at derived
  induction inner generalizing choices with
  | empty =>
      cases built
      exact ⟨_, mem_singleton_self _, .nil⟩
  | literal =>
      cases built
      exact ⟨_, mem_singleton_self _, derives_bytes _⟩
  | oneOf member =>
      cases built with
      | oneOf each => exact ⟨_, mem_singleton_self _, .rule (each _ member) (Derives.bytes _)⟩
  | ref defined _ ih =>
      cases built with
      | ref known =>
          obtain ⟨nt, known', choices, built, each⟩ := complete _ _ defined
          rw [known] at known'
          cases known'
          obtain ⟨rhs, member, derived⟩ := ih built
          exact ⟨_, mem_singleton_self _, .rule (each rhs member) derived⟩
  | seq _ _ ih ih' =>
      cases built with
      | seq left right => exact ⟨_, mem_singleton_self _, (only (ih left)).append (only (ih' right))⟩
  | altLeft _ ih =>
      cases built with
      | alt left right => exact ⟨_, mem_cons_self, only (ih left)⟩
  | altRight _ ih =>
      cases built with
      | alt left right =>
          obtain ⟨rhs, member, derived⟩ := ih right
          exact ⟨rhs, mem_cons_of_mem _ member, derived⟩
  | group _ ih =>
      cases built with
      | group inner each =>
          obtain ⟨rhs, member, derived⟩ := ih inner
          exact ⟨_, mem_singleton_self _, .rule (each rhs member) derived⟩
  | optionalNone =>
      cases built with
      | optional inner none some => exact ⟨_, mem_singleton_self _, .rule none .nil⟩
  | optionalSome _ ih =>
      cases built with
      | optional inner none some => exact ⟨_, mem_singleton_self _, .rule some (only (ih inner))⟩
  | starNone =>
      cases built with
      | star inner none more => exact ⟨_, mem_singleton_self _, .rule none .nil⟩
  | starMore _ _ ih ih' =>
      cases built with
      | star inner none more =>
          have rest := only (ih' (.star inner none more))
          exact ⟨_, mem_singleton_self _, .rule more ((only (ih inner)).append rest)⟩
  | plus _ _ ih ih' =>
      cases built with
      | plus inner rest more =>
          exact ⟨_, mem_singleton_self _, .rule more ((only (ih inner)).append (only (ih' rest)))⟩

end Pictor.Gbnf

namespace Pictor.Gbnf
open List

open Grammar

/-- Rules are kept, and the start stays. -/
structure Grows (grammar grammar' : Grammar) : Prop where
  kept : ∀ rule ∈ grammar.rules, rule ∈ grammar'.rules
  start : grammar'.start = grammar.start

namespace Grows

variable {grammar grammar' grammar'' : Grammar}

theorem refl (grammar : Grammar) : Grows grammar grammar := ⟨fun _ member => member, rfl⟩

theorem trans (first : Grows grammar grammar') (second : Grows grammar' grammar'') : Grows grammar grammar'' :=
  ⟨fun rule member => second.kept rule (first.kept rule member), second.start.trans first.start⟩

theorem allocNt (grammar : Grammar) (name : String) : Grows grammar (grammar.allocNt name).2 :=
  ⟨fun _ member => member, rfl⟩

theorem addRule (grammar : Grammar) (rule : Rule) : Grows grammar (grammar.addRule rule) :=
  ⟨fun _ member => mem_append_left _ member, rfl⟩

end Grows

theorem mem_addRule (grammar : Grammar) (rule : Rule) : rule ∈ (grammar.addRule rule).rules :=
  mem_append_right _ (mem_singleton_self rule)

/-- The grammar has grown by the rules of an expression, for which the sequence stands. -/
structure Compiles (ntMap : List (String × NonTerminalId)) (grammar grammar' : Grammar) (e : Expr) (rhs : List Symbol) :
    Prop where
  grows : Grows grammar grammar'
  built : Built ntMap grammar'.rules e [rhs]
  sound : ∀ defs meaning, Sound ntMap defs grammar meaning →
    ∃ later, meaning <+: later ∧ Sound ntMap defs grammar' later ∧ Means defs later rhs e

/-- The grammar has grown by the rules of a body for a left-hand side. -/
structure Fills (ntMap : List (String × NonTerminalId)) (lhs : NonTerminalId) (grammar grammar' : Grammar) (e : Expr) :
    Prop where
  grows : Grows grammar grammar'
  defined : Defined ntMap grammar'.rules lhs e
  sound : ∀ defs meaning whole, Sound ntMap defs grammar meaning → meaning[lhs]? = some whole →
    (∀ word, e.Matches defs word → whole.Matches defs word) →
    ∃ later, meaning <+: later ∧ Sound ntMap defs grammar' later

section Parts

variable {ntMap : List (String × NonTerminalId)} {defs : RuleDefs} {meaning : List Expr} {grammar grammar' grammar'' : Grammar}
  {e e' whole : Expr} {rhs rhs' : List Symbol} {lhs : NonTerminalId} {parser : Parser} {atom : AtomResult}

theorem Compiles.empty : Compiles ntMap grammar grammar .empty [] where
  grows := .refl grammar
  built := .empty
  sound _ meaning sound := ⟨meaning, prefix_refl meaning, sound, .empty⟩

theorem Compiles.literal {bytes : List UInt8} :
    Compiles ntMap grammar grammar (.literal bytes) (bytes.map fun byte => .terminal [byte]) where
  grows := .refl grammar
  built := .literal
  sound _ meaning sound := ⟨meaning, prefix_refl meaning, sound, .literal⟩

theorem Compiles.ref {name : String} {id : NonTerminalId} (known : ntMap.lookup name = some id) :
    Compiles ntMap grammar grammar (.ref name) [.nonTerminal id] where
  grows := .refl grammar
  built := .ref known
  sound _ meaning sound := ⟨meaning, prefix_refl meaning, sound, .single (sound.names name id known)⟩

theorem Compiles.seq (first : Compiles ntMap grammar grammar' e rhs) (second : Compiles ntMap grammar' grammar'' e' rhs') :
    Compiles ntMap grammar grammar'' (.seq e e') (rhs ++ rhs') where
  grows := first.grows.trans second.grows
  built := .seq (first.built.mono second.grows.kept) second.built
  sound defs meaning sound := by
    obtain ⟨middle, grown, sound, means⟩ := first.sound defs meaning sound
    obtain ⟨later, grown', sound, means'⟩ := second.sound defs middle sound
    exact ⟨later, grown.trans grown', sound, (means.mono grown').seq means'⟩

theorem Means.none (matches_nil : whole.Matches defs []) : Means defs meaning [] whole := by
  refine Means.empty.weaken fun word inner => ?_
  cases inner
  exact matches_nil

theorem grows_addOptional (parser : Parser) (atom : AtomResult) : Grows parser.grammar (parser.addOptional atom).2.grammar :=
  ((Grows.allocNt _ _).trans (Grows.addRule _ _)).trans (Grows.addRule _ _)

theorem grows_addStar (parser : Parser) (atom : AtomResult) : Grows parser.grammar (parser.addStar atom).2.grammar :=
  ((Grows.allocNt _ _).trans (Grows.addRule _ _)).trans (Grows.addRule _ _)

theorem grows_afterStar (parser : Parser) (atom : AtomResult) :
    Grows (parser.addStar atom).2.grammar (parser.addPlus atom).2.grammar :=
  (Grows.allocNt _ _).trans (Grows.addRule _ _)

theorem grows_addPlus (parser : Parser) (atom : AtomResult) : Grows parser.grammar (parser.addPlus atom).2.grammar :=
  (grows_addStar parser atom).trans (grows_afterStar parser atom)

variable (sound : Sound ntMap defs parser.grammar meaning)
include sound

variable (means : Means defs meaning (atomToSymbols atom) e)
include means

theorem Sound.addOptional : Sound ntMap defs (parser.addOptional atom).2.grammar (meaning ++ [.optional e]) := by
  have known := sound.fresh (.optional e)
  refine ((sound.allocNt _ (.optional e)).addRule known (.none .optionalNone)).addRule known ?_
  exact (means.mono (List.prefix_append ..)).weaken fun word inner => .optionalSome inner

theorem Sound.addStar : Sound ntMap defs (parser.addStar atom).2.grammar (meaning ++ [.star e]) := by
  have known := sound.fresh (.star e)
  refine ((sound.allocNt _ (.star e)).addRule known (.none .starNone)).addRule known ?_
  refine ((means.mono (List.prefix_append ..)).seq (.single known)).weaken fun word inner => ?_
  cases inner with
  | seq first rest => exact .starMore first rest

theorem Sound.addPlus : Sound ntMap defs (parser.addPlus atom).2.grammar (meaning ++ [.star e] ++ [.plus e]) := by
  have starred := sound.addStar means
  have known := starred.fresh (.plus e)
  have known' := prefix_known (List.prefix_append _ [.plus e]) (sound.fresh (.star e))
  have grown : meaning <+: meaning ++ [.star e] ++ [.plus e] := (List.prefix_append ..).trans (List.prefix_append ..)
  refine (starred.allocNt _ (.plus e)).addRule known ?_
  refine ((means.mono grown).seq (.single known')).weaken fun word inner => ?_
  cases inner with
  | seq first rest => exact .plus first rest

omit sound means

theorem Built.addStar (built : Built ntMap parser.grammar.rules e [atomToSymbols atom]) :
    Built ntMap (parser.addStar atom).2.grammar.rules (.star e) [[.nonTerminal (parser.addStar atom).1]] :=
  .star (built.mono (grows_addStar parser atom).kept) ((Grows.addRule _ _).kept _ (mem_addRule _ _)) (mem_addRule _ _)

variable (inner : Compiles ntMap grammar parser.grammar e (atomToSymbols atom))
include inner

theorem Compiles.addOptional :
    Compiles ntMap grammar (parser.addOptional atom).2.grammar (.optional e) (parser.addOptional atom).1 where
  grows := inner.grows.trans (grows_addOptional parser atom)
  built := .optional (inner.built.mono (grows_addOptional parser atom).kept)
    ((Grows.addRule _ _).kept _ (mem_addRule _ _)) (mem_addRule _ _)
  sound defs meaning sound := by
    obtain ⟨later, grown, sound, means⟩ := inner.sound defs meaning sound
    exact ⟨later ++ [.optional e], grown.trans (List.prefix_append ..), sound.addOptional means,
      .single (sound.fresh (.optional e))⟩

theorem Compiles.addStar :
    Compiles ntMap grammar (parser.addStar atom).2.grammar (.star e) [.nonTerminal (parser.addStar atom).1] where
  grows := inner.grows.trans (grows_addStar parser atom)
  built := inner.built.addStar
  sound defs meaning sound := by
    obtain ⟨later, grown, sound, means⟩ := inner.sound defs meaning sound
    exact ⟨later ++ [.star e], grown.trans (List.prefix_append ..), sound.addStar means,
      .single (sound.fresh (.star e))⟩

theorem Compiles.addPlus :
    Compiles ntMap grammar (parser.addPlus atom).2.grammar (.plus e) (parser.addPlus atom).1 where
  grows := inner.grows.trans (grows_addPlus parser atom)
  built := .plus (inner.built.mono (grows_addPlus parser atom).kept)
    (inner.built.addStar.mono (grows_afterStar parser atom).kept) (mem_addRule _ _)
  sound defs meaning sound := by
    obtain ⟨later, grown, sound, means⟩ := inner.sound defs meaning sound
    exact ⟨later ++ [.star e] ++ [.plus e],
      grown.trans ((List.prefix_append ..).trans (List.prefix_append ..)), sound.addPlus means,
      .single ((sound.addStar means).fresh (.plus e))⟩

omit inner

theorem foldl_addRule (parser : Parser) (lhs : NonTerminalId) (bytes : List UInt8) :
    (bytes.foldl (fun parser byte => parser.addRule lhs [.terminal [byte]]) parser) =
      { parser with grammar := { parser.grammar with
          rules := parser.grammar.rules ++ bytes.map fun byte => ⟨lhs, [.terminal [byte]]⟩ } } := by
  induction bytes generalizing parser with
  | nil => rw [foldl_nil, map_nil, append_nil]
  | cons byte bytes ih =>
      rw [foldl_cons, ih, map_cons, Parser.addRule, Grammar.addRule, append_assoc, singleton_append]

theorem Compiles.addClass (parser : Parser) (bytes : List UInt8) :
    Compiles ntMap parser.grammar (parser.addClass bytes).2.grammar (.oneOf bytes)
      [.nonTerminal (parser.addClass bytes).1] := by
  change Compiles ntMap parser.grammar (bytes.foldl _ (parser.allocSynthetic "gbnf_class").2).grammar _
    [.nonTerminal parser.grammar.ntCount]
  rw [foldl_addRule]
  refine ⟨⟨fun rule member => mem_append_left _ member, rfl⟩, .oneOf fun byte member => ?_, ?_⟩
  · exact mem_append_right _ (mem_map_of_mem member)
  · intro defs meaning sound
    have known := sound.fresh (.oneOf bytes)
    have allocated := sound.allocNt "" (.oneOf bytes)
    refine ⟨meaning ++ [.oneOf bytes], List.prefix_append .., ⟨allocated.length, allocated.names, ?_⟩, .single known⟩
    intro rule member
    rcases mem_append.mp member with old | new
    · exact allocated.rules rule old
    · obtain ⟨byte, listed, rfl⟩ := mem_map.mp new
      refine ⟨_, known, fun later _ word spells => ?_⟩
      cases spells with
      | terminal behind =>
          cases behind
          exact .oneOf listed

/-- A group is the body of its own non-terminal. -/
theorem Fills.group {name : String} (fills : Fills ntMap grammar.ntCount (grammar.allocNt name).2 grammar' e) :
    Compiles ntMap grammar grammar' (.group e) [.nonTerminal grammar.ntCount] where
  grows := (Grows.allocNt grammar name).trans fills.grows
  built := by
    obtain ⟨choices, built, each⟩ := fills.defined
    exact .group built each
  sound defs meaning sound := by
    have known := sound.fresh (.group e)
    obtain ⟨later, grown, sound⟩ := fills.sound defs _ _ (sound.allocNt name (.group e)) known fun word inner => .group inner
    exact ⟨later, (List.prefix_append ..).trans grown, sound, .single (prefix_known grown known)⟩

/-- The last alternative becomes a rule. -/
theorem Compiles.last (inner : Compiles ntMap grammar grammar' e rhs) :
    Fills ntMap lhs grammar (grammar'.addRule ⟨lhs, rhs⟩) e where
  grows := inner.grows.trans (Grows.addRule _ _)
  defined := by
    refine ⟨[rhs], inner.built.mono (Grows.addRule _ _).kept, fun other member => ?_⟩
    rw [mem_singleton.mp member]
    exact mem_addRule _ _
  sound defs meaning whole sound known within := by
    obtain ⟨later, grown, sound, means⟩ := inner.sound defs meaning sound
    exact ⟨later, grown, sound.addRule (prefix_known grown known) (means.weaken within)⟩

theorem Compiles.alt (first : Compiles ntMap grammar grammar' e rhs)
    (others : Fills ntMap lhs (grammar'.addRule ⟨lhs, rhs⟩) grammar'' e') :
    Fills ntMap lhs grammar grammar'' (.alt e e') where
  grows := (first.grows.trans (Grows.addRule _ _)).trans others.grows
  defined := by
    obtain ⟨choices, built, each⟩ := others.defined
    refine ⟨rhs :: choices, .alt (first.built.mono ((Grows.addRule _ _).trans others.grows).kept) built, fun other member => ?_⟩
    rcases mem_cons.mp member with rfl | member
    · exact others.grows.kept _ (mem_addRule _ _)
    · exact each other member
  sound defs meaning whole sound known within := by
    obtain ⟨middle, grown, sound, means⟩ := first.sound defs meaning sound
    have known := prefix_known grown known
    have added := sound.addRule known (means.weaken fun word inner => within word (.altLeft inner))
    obtain ⟨later, grown', sound⟩ := others.sound defs middle whole added known fun word inner => within word (.altRight inner)
    exact ⟨later, grown.trans grown', sound⟩

end Parts

end Pictor.Gbnf
