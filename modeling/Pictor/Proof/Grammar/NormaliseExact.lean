import Mathlib.Data.List.Forall2
import Pictor.Construction.Grammar.Ast

namespace Pictor.Grammar
open List

/-- A non-terminal is the chain of a byte sequence: it has one rule, which scans one byte and goes on with the chain of
the rest. -/
def ChainAt (rules : List Rule) : List UInt8 → NonTerminalId → Prop
  | [], _ => False
  | [byte], id => ∀ rule, rule ∈ rules ∧ rule.lhs = id ↔ rule = ⟨id, [.terminal [byte]]⟩
  | byte :: next :: rest, id => ∃ restNt, ChainAt rules (next :: rest) restNt ∧
      ∀ rule, rule ∈ rules ∧ rule.lhs = id ↔ rule = ⟨id, [.terminal [byte], .nonTerminal restNt]⟩

/-- The terminals of the rules have at most one byte. -/
def ShortTerminals (rules : List Rule) : Prop :=
  ∀ rule ∈ rules, ∀ bytes, .terminal bytes ∈ rule.rhs → bytes.length ≤ 1

/-- The left-hand sides of the rules lie in a range. -/
def LhsIn (rules : List Rule) (first last : Nat) : Prop := ∀ rule ∈ rules, first ≤ rule.lhs ∧ rule.lhs < last

variable {extra more : List Rule} {bytes : List UInt8} {id first middle last : Nat}

theorem LhsIn.append (front : LhsIn extra first middle) (back : LhsIn more middle last) (ordered : first ≤ middle)
    (grown : middle ≤ last) : LhsIn (extra ++ more) first last := by
  intro rule member
  rcases mem_append.mp member with inside | inside
  · exact ⟨(front rule inside).1, Nat.lt_of_lt_of_le (front rule inside).2 grown⟩
  · exact ⟨Nat.le_trans ordered (back rule inside).1, (back rule inside).2⟩

theorem LhsIn.weaken (inside : LhsIn extra first middle) (grown : middle ≤ last) : LhsIn extra first last :=
  fun rule member => ⟨(inside rule member).1, Nat.lt_of_lt_of_le (inside rule member).2 grown⟩

theorem ShortTerminals.append (front : ShortTerminals extra) (back : ShortTerminals more) :
    ShortTerminals (extra ++ more) := by
  intro rule member
  rcases mem_append.mp member with inside | inside
  · exact front rule inside
  · exact back rule inside

/-- A chain has rules. -/
theorem ChainAt.exists_rule (chain : ChainAt extra bytes id) : ∃ rule ∈ extra, rule.lhs = id := by
  match bytes, chain with
  | [_], only =>
      obtain ⟨member, lhs⟩ := (only _).mpr rfl
      exact ⟨_, member, lhs⟩
  | _ :: _ :: _, ⟨_, _, only⟩ =>
      obtain ⟨member, lhs⟩ := (only _).mpr rfl
      exact ⟨_, member, lhs⟩

/-- The rules of two lists have no non-terminal in common. -/
def Apart (rules others : List Rule) : Prop := ∀ rule ∈ rules, ∀ other ∈ others, rule.lhs ≠ other.lhs

theorem LhsIn.apart (inside : LhsIn extra first middle) (fresh : LhsIn more middle last) : Apart extra more :=
  fun rule member other member' =>
    Nat.ne_of_lt (Nat.lt_of_lt_of_le (inside rule member).2 (fresh other member').1)

/-- A chain reads the rules of its own non-terminals only. -/
theorem ChainAt.congr {rules : List Rule} (same : ∀ rule ∈ extra, ∀ other, other ∈ rules ∧ other.lhs = rule.lhs ↔
    other ∈ extra ∧ other.lhs = rule.lhs) (chain : ChainAt extra bytes id) : ChainAt rules bytes id := by
  induction bytes generalizing id with
  | nil => exact chain
  | cons byte bytes ih =>
      obtain ⟨old, inside, rfl⟩ := chain.exists_rule
      match bytes, chain with
      | [], only =>
          intro rule
          rw [same old inside]
          exact only rule
      | next :: rest, ⟨restNt, later, only⟩ =>
          refine ⟨restNt, ih later, fun rule => ?_⟩
          rw [same old inside]
          exact only rule

/-- Rules of other non-terminals do not change a chain. -/
theorem ChainAt.extend (apart : Apart extra more) (chain : ChainAt extra bytes id) :
    ChainAt (extra ++ more) bytes id := by
  refine chain.congr fun rule inside other => ?_
  rw [mem_append]
  constructor
  · rintro ⟨member | member, lhs⟩
    · exact ⟨member, lhs⟩
    · exact absurd lhs.symm (apart rule inside other member)
  · rintro ⟨member, lhs⟩
    exact ⟨Or.inl member, lhs⟩

theorem ChainAt.behind (apart : Apart extra more) (chain : ChainAt extra bytes id) :
    ChainAt (more ++ extra) bytes id := by
  refine (chain.extend apart).congr fun rule _ other => ?_
  rw [mem_append, mem_append, or_comm]

/-- The only word of a chain is its byte sequence. -/
theorem ChainAt.derives {word : List UInt8} (chain : ChainAt grammar.rules bytes id) :
    Derives grammar [.nonTerminal id] word ↔ word = bytes := by
  induction bytes generalizing id word with
  | nil => exact chain.elim
  | cons byte bytes ih =>
      rw [derives_nonTerminal]
      match bytes, chain with
      | [], only =>
          constructor
          · rintro ⟨rule, member, lhs, inner⟩
            rw [(only rule).mp ⟨member, lhs⟩] at inner
            obtain ⟨tail, rfl, last⟩ := derives_terminal_cons.mp inner
            cases last
            rfl
          · rintro rfl
            obtain ⟨member, lhs⟩ := (only _).mpr rfl
            exact ⟨_, member, lhs, Derives.bytes [byte]⟩
      | next :: rest, ⟨restNt, later, only⟩ =>
          constructor
          · rintro ⟨rule, member, lhs, inner⟩
            rw [(only rule).mp ⟨member, lhs⟩] at inner
            obtain ⟨tail, rfl, last⟩ := derives_terminal_cons.mp inner
            rw [(ih later).mp last]
            rfl
          · rintro rfl
            obtain ⟨member, lhs⟩ := (only _).mpr rfl
            exact ⟨_, member, lhs, derives_terminal_cons.mpr ⟨_, rfl, (ih later).mpr rfl⟩⟩

/-- Every chain of the cache that is not longer than a bound is built. -/
def Cached (extra : List Rule) (cache : ChainCache) (bound : Nat) : Prop :=
  ∀ entry ∈ cache, entry.1.length ≤ bound → ChainAt extra entry.1 entry.2

/-- What a step of the normalisation adds: rules of fresh non-terminals with short terminals, and their chains. -/
structure Extends (base extra more : List Rule) (grammar grammar' : Grammar) (cache cache' : ChainCache) : Prop where
  rules : grammar'.rules = base ++ (extra ++ more)
  start : grammar'.start = grammar.start
  grown : grammar.ntCount ≤ grammar'.ntCount
  fresh : LhsIn more grammar.ntCount grammar'.ntCount
  short : ShortTerminals more
  cached : ∀ entry ∈ cache', entry ∈ cache ∨ ChainAt (extra ++ more) entry.1 entry.2

variable {base : List Rule} {grammar : Grammar} {cache : ChainCache}

theorem mem_of_lookup {id : NonTerminalId} (found : cache.lookup bytes = some id) : (bytes, id) ∈ cache := by
  induction cache with
  | nil => cases found
  | cons entry cache ih =>
      obtain ⟨key, value⟩ := entry
      rw [lookup_cons] at found
      cases same : bytes == key with
      | true =>
          rw [same] at found
          cases found
          rw [beq_iff_eq.mp same]
          exact mem_cons_self
      | false =>
          rw [same] at found
          exact mem_cons_of_mem _ (ih found)

/-- The chain of a byte sequence is built, and the chains in the cache remain. -/
theorem internByteChain_spec (some : bytes ≠ []) (ordered : first ≤ grammar.ntCount)
    (rules : grammar.rules = base ++ extra) (inside : LhsIn extra first grammar.ntCount)
    (cached : Cached extra cache bytes.length) :
    ∃ more, Extends base extra more grammar (internByteChain bytes grammar cache).2.1 cache
        (internByteChain bytes grammar cache).2.2 ∧
      ChainAt (extra ++ more) bytes (internByteChain bytes grammar cache).1 := by
  induction bytes generalizing grammar cache with
  | nil => exact absurd rfl some
  | cons byte rest ih =>
      rw [internByteChain]
      cases found : cache.lookup (byte :: rest) with
      | some id =>
          refine ⟨[], ⟨?_, rfl, Nat.le_refl _, nofun, nofun, fun entry member => Or.inl member⟩, ?_⟩
          · rw [append_nil]
            exact rules
          · rw [append_nil]
            exact cached _ (mem_of_lookup found) (Nat.le_refl _)
      | none =>
          dsimp only
          by_cases last : rest = []
          · subst last
            rw [if_pos rfl]
            have fresh : LhsIn [⟨grammar.ntCount, [.terminal [byte]]⟩] grammar.ntCount (grammar.ntCount + 1) := by
              intro rule member
              rw [mem_singleton.mp member]
              exact ⟨Nat.le_refl _, Nat.lt_succ_self _⟩
            have chain : ChainAt (extra ++ [⟨grammar.ntCount, [.terminal [byte]]⟩]) [byte] grammar.ntCount := by
              intro rule
              rw [mem_append, mem_singleton]
              constructor
              · rintro ⟨member | same, lhs⟩
                · exact absurd (lhs ▸ (inside rule member).2) (Nat.lt_irrefl _)
                · exact same
              · rintro rfl
                exact ⟨Or.inr rfl, rfl⟩
            refine ⟨[⟨grammar.ntCount, [.terminal [byte]]⟩], ⟨?_, rfl, Nat.le_succ _, fresh, ?_, ?_⟩, chain⟩
            · rw [addRule, allocNt, rules, append_assoc]
            · intro rule member bytes' terminal
              rw [mem_singleton.mp member, mem_singleton, Symbol.terminal.injEq] at terminal
              rw [terminal]
              exact Nat.le_refl 1
            · intro entry member
              rcases mem_cons.mp member with rfl | member
              · exact Or.inr chain
              · exact Or.inl member
          · rw [if_neg last]
            obtain ⟨next, others, rfl⟩ := exists_cons_of_ne_nil last
            have named : (grammar.allocNt (chainName (byte :: next :: others))).1 = grammar.ntCount := rfl
            rw [named]
            -- The longer sequence is in the cache before its rule exists, and the chain of the rest does not read it.
            have pending : Cached extra ((byte :: next :: others, grammar.ntCount) :: cache)
                (next :: others).length := by
              intro entry member short
              rcases mem_cons.mp member with rfl | member
              · exact absurd short (Nat.not_succ_le_self _)
              · exact cached entry member (Nat.le_succ_of_le short)
            obtain ⟨more, step, later⟩ := @ih (grammar.allocNt (chainName (byte :: next :: others))).2
              ((byte :: next :: others, grammar.ntCount) :: cache) last (Nat.le_succ_of_le ordered) rules
              (inside.weaken (Nat.le_succ _)) pending
            generalize internByteChain (next :: others) (grammar.allocNt (chainName (byte :: next :: others))).2
              ((byte :: next :: others, grammar.ntCount) :: cache) = result at step later ⊢
            obtain ⟨restNt, grammar', cache'⟩ := result
            dsimp only at step later ⊢
            have fresh : ∀ rule ∈ extra ++ more, rule.lhs ≠ grammar.ntCount := by
              intro rule member
              rcases mem_append.mp member with old | new
              · exact Nat.ne_of_lt (inside rule old).2
              · exact Nat.ne_of_gt (step.fresh rule new).1
            have apart : Apart (extra ++ more)
                [⟨grammar.ntCount, [.terminal [byte], .nonTerminal restNt]⟩] := by
              intro rule member other member'
              rw [mem_singleton.mp member']
              exact fresh rule member
            have chain : ChainAt ((extra ++ more) ++ [⟨grammar.ntCount, [.terminal [byte], .nonTerminal restNt]⟩])
                (byte :: next :: others) grammar.ntCount := by
              refine ⟨restNt, later.extend apart, fun rule => ?_⟩
              rw [mem_append, mem_singleton]
              constructor
              · rintro ⟨member | same, lhs⟩
                · exact absurd lhs (fresh rule member)
                · exact same
              · rintro rfl
                exact ⟨Or.inr rfl, rfl⟩
            refine ⟨more ++ [⟨grammar.ntCount, [.terminal [byte], .nonTerminal restNt]⟩],
              ⟨?_, step.start, Nat.le_of_succ_le step.grown, ?_, step.short.append ?_, ?_⟩, ?_⟩
            · rw [addRule, step.rules, append_assoc, append_assoc]
            · intro rule member
              rcases mem_append.mp member with new | last
              · exact ⟨Nat.le_of_succ_le (step.fresh rule new).1, (step.fresh rule new).2⟩
              · rw [mem_singleton.mp last]
                exact ⟨Nat.le_refl _, step.grown⟩
            · intro rule member bytes' terminal
              rw [mem_singleton.mp member, mem_cons, Symbol.terminal.injEq, mem_singleton] at terminal
              rcases terminal with same | other
              · rw [same]
                exact Nat.le_refl 1
              · cases other
            · intro entry member
              rw [← append_assoc]
              rcases step.cached entry member with old | new
              · rcases mem_cons.mp old with rfl | old
                · exact Or.inr chain
                · exact Or.inl old
              · exact Or.inr (new.extend apart)
            · rw [← append_assoc]
              exact chain

end Pictor.Grammar

namespace Pictor.Grammar
open List

/-- A multi-byte terminal becomes its chain, and every other symbol remains. -/
def SymbolRewritten (extra : List Rule) (symbol symbol' : Symbol) : Prop :=
  (∃ bytes id, symbol = .terminal bytes ∧ 1 < bytes.length ∧ ChainAt extra bytes id ∧ symbol' = .nonTerminal id) ∨
    symbol' = symbol ∧ ∀ bytes, symbol = .terminal bytes → bytes.length ≤ 1

def RuleRewritten (extra : List Rule) (rule rule' : Rule) : Prop :=
  rule'.lhs = rule.lhs ∧ List.Forall₂ (SymbolRewritten extra) rule.rhs rule'.rhs

variable {base extra more rules : List Rule} {first : Nat} {grammar grammar' : Grammar} {cache cache' : ChainCache}

theorem SymbolRewritten.extend {symbol symbol' : Symbol} (apart : Apart extra more)
    (rewritten : SymbolRewritten extra symbol symbol') : SymbolRewritten (extra ++ more) symbol symbol' := by
  rcases rewritten with ⟨bytes, id, same, long, chain, same'⟩ | kept
  · exact Or.inl ⟨bytes, id, same, long, chain.extend apart, same'⟩
  · exact Or.inr kept

theorem RuleRewritten.extend {rule rule' : Rule} (apart : Apart extra more) (rewritten : RuleRewritten extra rule rule') :
    RuleRewritten (extra ++ more) rule rule' :=
  ⟨rewritten.1, rewritten.2.imp fun _ _ => SymbolRewritten.extend apart⟩

/-- All chains of the cache are built. -/
def Settled (extra : List Rule) (cache : ChainCache) : Prop := ∀ entry ∈ cache, ChainAt extra entry.1 entry.2

namespace Extends

theorem settled (step : Extends base extra more grammar grammar' cache cache')
    (inside : LhsIn extra first grammar.ntCount) (known : Settled extra cache) : Settled (extra ++ more) cache' := by
  intro entry member
  rcases step.cached entry member with old | new
  · exact (known entry old).extend (inside.apart step.fresh)
  · exact new

theorem lhsIn (step : Extends base extra more grammar grammar' cache cache')
    (ordered : first ≤ grammar.ntCount) (inside : LhsIn extra first grammar.ntCount) :
    LhsIn (extra ++ more) first grammar'.ntCount := inside.append step.fresh ordered step.grown

theorem refl (rules : grammar.rules = base ++ extra) : Extends base extra [] grammar grammar cache cache := by
  refine ⟨?_, rfl, Nat.le_refl _, nofun, nofun, fun entry member => Or.inl member⟩
  rw [append_nil]
  exact rules

theorem trans {more' : List Rule} {grammar'' : Grammar} {cache'' : ChainCache}
    (step : Extends base extra more grammar grammar' cache cache')
    (later : Extends base (extra ++ more) more' grammar' grammar'' cache' cache'')
    (apart : Apart (extra ++ more) more') : Extends base extra (more ++ more') grammar grammar'' cache cache'' := by
  have rules := later.rules
  rw [append_assoc extra] at rules
  refine ⟨rules, later.start.trans step.start, Nat.le_trans step.grown later.grown,
    step.fresh.append later.fresh step.grown later.grown, step.short.append later.short, fun entry member => ?_⟩
  rw [← append_assoc]
  rcases later.cached entry member with old | new
  · exact (step.cached entry old).imp_right fun chain => chain.extend apart
  · exact Or.inr new

end Extends

/-- A right-hand side is rewritten symbol by symbol. -/
theorem normaliseRhs_spec {rhs : List Symbol} (ordered : first ≤ grammar.ntCount)
    (rules : grammar.rules = base ++ extra) (inside : LhsIn extra first grammar.ntCount)
    (known : Settled extra cache) : ∃ more, Extends base extra more grammar (normaliseRhs rhs grammar cache).2.1 cache
        (normaliseRhs rhs grammar cache).2.2 ∧
      List.Forall₂ (SymbolRewritten (extra ++ more)) rhs (normaliseRhs rhs grammar cache).1 := by
  induction rhs generalizing grammar cache extra with
  | nil => exact ⟨[], .refl rules, .nil⟩
  | cons symbol rhs ih =>
      have kept (same : normaliseRhs (symbol :: rhs) grammar cache =
          (symbol :: (normaliseRhs rhs grammar cache).1, (normaliseRhs rhs grammar cache).2))
          (short : ∀ bytes, symbol = .terminal bytes → bytes.length ≤ 1) :
          ∃ more, Extends base extra more grammar (normaliseRhs (symbol :: rhs) grammar cache).2.1 cache
              (normaliseRhs (symbol :: rhs) grammar cache).2.2 ∧
            List.Forall₂ (SymbolRewritten (extra ++ more)) (symbol :: rhs)
              (normaliseRhs (symbol :: rhs) grammar cache).1 := by
        obtain ⟨more, step, rewritten⟩ := ih ordered rules inside known
        rw [same]
        exact ⟨more, step, .cons (Or.inr ⟨rfl, short⟩) rewritten⟩
      cases symbol with
      | nonTerminal id => exact kept rfl fun bytes none => (nomatch none)
      | terminal bytes =>
          by_cases long : 1 < bytes.length
          · have nonempty : bytes ≠ [] := length_pos_iff.mp (Nat.lt_of_succ_lt long)
            obtain ⟨more, step, chain⟩ := internByteChain_spec nonempty ordered rules inside
              fun entry member _ => known entry member
            obtain ⟨more', later, rewritten⟩ := @ih (extra ++ more) _ _ (Nat.le_trans ordered step.grown) step.rules
              (step.lhsIn ordered inside) (step.settled inside known)
            have apart := (step.lhsIn ordered inside).apart later.fresh
            rw [append_assoc] at rewritten
            rw [normaliseRhs, if_pos long]
            refine ⟨more ++ more', step.trans later apart, .cons (Or.inl ⟨bytes, _, rfl, long, ?_, rfl⟩) rewritten⟩
            rw [← append_assoc]
            exact chain.extend apart
          · refine kept ?_ fun other same => ?_
            · rw [normaliseRhs, if_neg long]
            · cases same
              exact Nat.le_of_not_lt long

/-- The loop rewrites one rule after another and appends the chains. -/
theorem normaliseFrom_spec {finished todo : List Rule} (ordered : first ≤ grammar.ntCount)
    (rules : grammar.rules = (finished ++ todo) ++ extra) (inside : LhsIn extra first grammar.ntCount)
    (known : Settled extra cache) :
    ∃ rewritten more, (normaliseFrom todo.length finished.length grammar cache).rules =
        (finished ++ rewritten) ++ (extra ++ more) ∧ List.Forall₂ (RuleRewritten (extra ++ more)) todo rewritten ∧
      (∃ last, grammar.ntCount ≤ last ∧ LhsIn more grammar.ntCount last) ∧ ShortTerminals more := by
  induction todo generalizing finished extra grammar cache with
  | nil =>
      refine ⟨[], [], ?_, .nil, ⟨grammar.ntCount, Nat.le_refl _, nofun⟩, nofun⟩
      rw [append_nil extra]
      exact rules
  | cons rule todo ih =>
      have here : grammar.ruleAt finished.length = rule := by
        rw [ruleAt, rules, getD_eq_getElem?_getD, append_assoc,
          getElem?_append_right (Nat.le_refl _), Nat.sub_self]
        rfl
      obtain ⟨more, step, rewritten⟩ := @normaliseRhs_spec _ _ _ _ _ rule.rhs ordered rules inside known
      rw [length_cons, normaliseFrom, here]
      generalize normaliseRhs rule.rhs grammar cache = result at step rewritten ⊢
      obtain ⟨rhs, grammar', cache'⟩ := result
      dsimp only at step rewritten ⊢
      have set : grammar'.rules.set finished.length { rule with rhs := rhs } =
          ((finished ++ [{ rule with rhs := rhs }]) ++ todo) ++ (extra ++ more) := by
        rw [step.rules, append_assoc, append_assoc, set_append_right _ _ (Nat.le_refl _), Nat.sub_self]
        simp only [cons_append, set_cons_zero, append_assoc, nil_append]
      obtain ⟨rewritten', more', result, others, ⟨last, grown, fresh⟩, short'⟩ :=
        @ih (extra ++ more) { grammar' with rules := grammar'.rules.set finished.length { rule with rhs := rhs } } cache'
          (finished ++ [{ rule with rhs := rhs }]) (Nat.le_trans ordered step.grown) set (step.lhsIn ordered inside)
          (step.settled inside known)
      have apart : Apart (extra ++ more) more' := (step.lhsIn ordered inside).apart fresh
      have here' : RuleRewritten (extra ++ more) rule { rule with rhs := rhs } := ⟨rfl, rewritten⟩
      rw [length_append] at result
      refine ⟨{ rule with rhs := rhs } :: rewritten', more ++ more', ?_, ?_, ⟨last, ?_, ?_⟩, step.short.append short'⟩
      · rw [← append_assoc extra]
        simpa only [append_assoc, singleton_append, length_singleton] using result
      · rw [← append_assoc]
        exact .cons (here'.extend apart) others
      · exact Nat.le_trans step.grown grown
      · exact step.fresh.append fresh step.grown grown

/-- The non-terminals of all rules are below the count. -/
structure Bounded (grammar : Grammar) : Prop where
  lhs : ∀ rule ∈ grammar.rules, rule.lhs < grammar.ntCount
  rhs : ∀ rule ∈ grammar.rules, ∀ id, .nonTerminal id ∈ rule.rhs → id < grammar.ntCount

/-- The rules of the normalised grammar are the rewritten rules and their chains. -/
theorem normaliseTerminals_rules (grammar : Grammar) :
    ∃ rewritten extra last, (normaliseTerminals grammar).rules = rewritten ++ extra ∧
      List.Forall₂ (RuleRewritten extra) grammar.rules rewritten ∧ LhsIn extra grammar.ntCount last ∧
      ShortTerminals extra := by
  obtain ⟨rewritten, more, rules, each, ⟨last, _, fresh⟩, short⟩ :=
    @normaliseFrom_spec [] _ grammar [] [] grammar.rules (Nat.le_refl _) (append_nil _).symm nofun nofun
  exact ⟨rewritten, more, last, rules, each, fresh, short⟩

theorem RuleRewritten.short {rule rule' : Rule} (rewritten : RuleRewritten extra rule rule') (bytes : List UInt8)
    (terminal : .terminal bytes ∈ rule'.rhs) : bytes.length ≤ 1 := by
  obtain ⟨index, inside, same⟩ := getElem_of_mem terminal
  have long := rewritten.2.length_eq
  have each := List.Forall₂.get rewritten.2 (by omega : index < rule.rhs.length) inside
  rw [get_eq_getElem, get_eq_getElem, same] at each
  rcases each with ⟨_, _, _, _, _, none⟩ | ⟨kept, short⟩
  · cases none
  · exact short bytes kept.symm

theorem normaliseTerminals_short (grammar : Grammar) : ShortTerminals (normaliseTerminals grammar).rules := by
  obtain ⟨rewritten, extra, _, rules, each, _, short⟩ := normaliseTerminals_rules grammar
  rw [rules]
  refine ShortTerminals.append (fun rule' member => ?_) short
  obtain ⟨index, inside, rfl⟩ := getElem_of_mem member
  have same := each.length_eq
  exact RuleRewritten.short (List.Forall₂.get each (by omega : index < grammar.rules.length) inside)

/-- Short terminals are not rewritten. -/
theorem normaliseRhs_short {rhs : List Symbol} (short : ∀ bytes, .terminal bytes ∈ rhs → bytes.length ≤ 1)
    (grammar : Grammar) (cache : ChainCache) : normaliseRhs rhs grammar cache = (rhs, grammar, cache) := by
  induction rhs with
  | nil => rfl
  | cons symbol rhs ih =>
      have rest := ih fun bytes member => short bytes (mem_cons_of_mem _ member)
      cases symbol with
      | nonTerminal id => rw [normaliseRhs, rest]
      | terminal bytes =>
          rw [normaliseRhs, if_neg (Nat.not_lt.mpr (short bytes mem_cons_self)), rest]

theorem normaliseFrom_short (short : ShortTerminals grammar.rules) {count index : Nat}
    (inside : index + count ≤ grammar.rules.length) (cache : ChainCache) :
    normaliseFrom count index grammar cache = grammar := by
  induction count generalizing index with
  | zero => rfl
  | succ count ih =>
      have here : index < grammar.rules.length := by omega
      have kept : grammar.rules.set index (grammar.ruleAt index) = grammar.rules := by
        rw [ruleAt, getD_eq_getElem?_getD, getElem?_eq_getElem here, Option.getD_some,
          set_getElem_self]
      rw [normaliseFrom, normaliseRhs_short (short _ (grammar.ruleAt_mem index here))]
      dsimp only
      rw [kept]
      exact ih (by omega)

section Forall

variable {α β : Type*} {related : α → β → Prop} {before : List α} {after : List β}

theorem exists_related (each : List.Forall₂ related before after) {a : α} (member : a ∈ before) :
    ∃ b ∈ after, related a b := by
  induction each with
  | nil => cases member
  | cons same _ ih =>
      rcases mem_cons.mp member with rfl | later
      · exact ⟨_, mem_cons_self, same⟩
      · obtain ⟨b, inside, found⟩ := ih later
        exact ⟨b, mem_cons_of_mem _ inside, found⟩

end Forall

section Language

variable {rewritten : List Rule} {last : Nat} {symbols symbols' : List Symbol} {word : List UInt8}

theorem chainAt_rules (bounded : grammar.Bounded) (rules : grammar'.rules = rewritten ++ extra)
    (each : List.Forall₂ (RuleRewritten extra) grammar.rules rewritten) (fresh : LhsIn extra grammar.ntCount last)
    {bytes : List UInt8} {id : NonTerminalId} (chain : ChainAt extra bytes id) : ChainAt grammar'.rules bytes id := by
  rw [rules]
  refine chain.behind fun rule member other member' => ?_
  obtain ⟨old, inside, lhs, _⟩ := exists_related each.flip member'
  rw [lhs]
  exact Nat.ne_of_gt (Nat.lt_of_lt_of_le (bounded.lhs old inside) (fresh rule member).1)

/-- What a sequence derives, the rewritten sequence derives. -/
theorem Derives.normalised (chains : ∀ bytes id, ChainAt extra bytes id → ChainAt grammar'.rules bytes id)
    (rules : ∀ rule ∈ grammar.rules, ∃ rule' ∈ grammar'.rules, RuleRewritten extra rule rule')
    (derived : Derives grammar symbols word) (same : List.Forall₂ (SymbolRewritten extra) symbols symbols') :
    Derives grammar' symbols' word := by
  induction derived generalizing symbols' with
  | nil =>
      cases same
      exact .nil
  | @terminal bytes rest word _ ih =>
      obtain ⟨symbol', rest', here, later, rfl⟩ := forall₂_cons_left_iff.mp same
      rcases here with ⟨bytes', id, terminal, _, chain, rfl⟩ | ⟨rfl, _⟩
      · cases terminal
        exact Derives.append ((chains _ _ chain).derives.mpr rfl) (ih later)
      · exact .terminal (ih later)
  | @nonTerminal rule rest first second member _ _ inner ih =>
      obtain ⟨symbol', rest', here, later, rfl⟩ := forall₂_cons_left_iff.mp same
      rcases here with ⟨_, _, terminal, _⟩ | ⟨rfl, _⟩
      · cases terminal
      · obtain ⟨rule', member', lhs, rhs⟩ := rules rule member
        rw [← lhs]
        exact .nonTerminal member' (inner rhs) (ih later)

/-- What the rewritten sequence derives, the original sequence derives. -/
theorem Derives.original (chains : ∀ bytes id, ChainAt extra bytes id → ChainAt grammar'.rules bytes id)
    (rules : ∀ rule' ∈ grammar'.rules, rule'.lhs < grammar.ntCount → ∃ rule ∈ grammar.rules,
      RuleRewritten extra rule rule') (bounded : grammar.Bounded) (derived : Derives grammar' symbols' word)
    (same : List.Forall₂ (SymbolRewritten extra) symbols symbols')
    (inside : ∀ id, .nonTerminal id ∈ symbols → id < grammar.ntCount) : Derives grammar symbols word := by
  induction derived generalizing symbols with
  | nil =>
      cases same
      exact .nil
  | @terminal bytes rest' word _ ih =>
      obtain ⟨symbol, rest, here, later, rfl⟩ := forall₂_cons_right_iff.mp same
      rcases here with ⟨_, _, _, _, _, chain⟩ | ⟨rfl, _⟩
      · cases chain
      · exact .terminal (ih later fun id member => inside id (mem_cons_of_mem _ member))
  | @nonTerminal rule' rest' first second member inner _ innerIh ih =>
      obtain ⟨symbol, rest, here, later, rfl⟩ := forall₂_cons_right_iff.mp same
      have tail := ih later fun id member => inside id (mem_cons_of_mem _ member)
      rcases here with ⟨bytes, id, rfl, _, chain, named⟩ | ⟨rfl, _⟩
      · cases named
        rw [(chains _ _ chain).derives.mp (.rule member inner)]
        exact .terminal tail
      · obtain ⟨rule, old, lhs, rhs⟩ := rules rule' member (inside _ mem_cons_self)
        have front := innerIh rhs (bounded.rhs rule old)
        rw [lhs]
        exact .nonTerminal old front tail

theorem internByteChain_start (bytes : List UInt8) (grammar : Grammar) (cache : ChainCache) :
    (internByteChain bytes grammar cache).2.1.start = grammar.start := by
  induction bytes generalizing grammar cache with
  | nil => rfl
  | cons byte rest ih =>
      rw [internByteChain]
      cases cache.lookup (byte :: rest) with
      | some id => rfl
      | none =>
          dsimp only [allocNt]
          split
          · rfl
          · exact ih _ _

theorem normaliseRhs_start (rhs : List Symbol) (grammar : Grammar) (cache : ChainCache) :
    (normaliseRhs rhs grammar cache).2.1.start = grammar.start := by
  induction rhs generalizing grammar cache with
  | nil => rfl
  | cons symbol rhs ih =>
      cases symbol with
      | nonTerminal id => exact ih _ _
      | terminal bytes =>
          rw [normaliseRhs]
          split
          · exact (ih _ _).trans (internByteChain_start bytes grammar cache)
          · exact ih _ _

theorem normaliseFrom_start (count index : Nat) (grammar : Grammar) (cache : ChainCache) :
    (normaliseFrom count index grammar cache).start = grammar.start := by
  induction count generalizing index grammar cache with
  | zero => rfl
  | succ count ih => exact (ih _ _ _).trans (normaliseRhs_start _ grammar cache)

/-- A normalised grammar generates no new word. -/
theorem generates_original (bounded : grammar.Bounded) (inside : grammar.start < grammar.ntCount)
    (generated : (normaliseTerminals grammar).Generates word) : grammar.Generates word := by
  obtain ⟨rewritten, extra, last, rules, each, fresh, _⟩ := normaliseTerminals_rules grammar
  rw [Generates, normaliseTerminals, normaliseFrom_start] at generated
  refine Derives.original (fun _ _ chain => chainAt_rules bounded rules each fresh chain) (fun rule' member old => ?_)
    bounded generated (.cons (Or.inr ⟨rfl, fun _ same => by cases same⟩) .nil) fun other member => ?_
  · rw [rules] at member
    rcases mem_append.mp member with kept | added
    · exact exists_related each.flip kept
    · exact absurd old (Nat.not_lt.mpr (fresh rule' added).1)
  · cases mem_singleton.mp member
    exact inside

end Language

/-- The normalisation leaves short terminals and the words of all original non-terminals, and it is idempotent. -/
theorem normaliseTerminals_exact (grammar : Grammar) (bounded : grammar.Bounded) :
    (∀ rule ∈ (normaliseTerminals grammar).rules, ∀ bytes, .terminal bytes ∈ rule.rhs → bytes.length ≤ 1) ∧
      (∀ id, id < grammar.ntCount → ∀ word,
        Derives (normaliseTerminals grammar) [.nonTerminal id] word ↔ Derives grammar [.nonTerminal id] word) ∧
      normaliseTerminals (normaliseTerminals grammar) = normaliseTerminals grammar := by
  have short := normaliseTerminals_short grammar
  refine ⟨short, fun id original word => ?_, normaliseFrom_short short (by omega) []⟩
  obtain ⟨rewritten, extra, last, rules, each, fresh, _⟩ := normaliseTerminals_rules grammar
  have chains (bytes : List UInt8) (id : NonTerminalId) (chain : ChainAt extra bytes id) :=
    chainAt_rules bounded rules each fresh chain
  have same : List.Forall₂ (SymbolRewritten extra) [.nonTerminal id] [.nonTerminal id] :=
    .cons (Or.inr ⟨rfl, nofun⟩) .nil
  constructor
  · intro derived
    refine derived.original chains (fun rule' member old => ?_) bounded same fun other member => ?_
    · rw [rules] at member
      rcases mem_append.mp member with inside | inside
      · exact exists_related each.flip inside
      · exact absurd old (Nat.not_lt.mpr (fresh rule' inside).1)
    · cases mem_singleton.mp member
      exact original
  · intro derived
    refine derived.normalised chains (fun rule member => ?_) same
    obtain ⟨rule', inside, found⟩ := exists_related each member
    rw [rules]
    exact ⟨rule', mem_append_left _ inside, found⟩

/-- Two rules share the chain of a common suffix. -/
theorem normaliseTerminals_exact_shared :
    Bounded ⟨[⟨0, [.terminal [97, 98]]⟩, ⟨0, [.terminal [99, 97, 98], .nonTerminal 0]⟩], 0, [], 1⟩ ∧
      (normaliseTerminals ⟨[⟨0, [.terminal [97, 98]]⟩, ⟨0, [.terminal [99, 97, 98], .nonTerminal 0]⟩], 0, [], 1⟩).ntCount
        = 4 ∧ ∀ word, Derives (normaliseTerminals
          ⟨[⟨0, [.terminal [97, 98]]⟩, ⟨0, [.terminal [99, 97, 98], .nonTerminal 0]⟩], 0, [], 1⟩) [.nonTerminal 0] word ↔
        Derives ⟨[⟨0, [.terminal [97, 98]]⟩, ⟨0, [.terminal [99, 97, 98], .nonTerminal 0]⟩], 0, [], 1⟩
          [.nonTerminal 0] word := by
  have bounded : Bounded
      ⟨[⟨0, [.terminal [97, 98]]⟩, ⟨0, [.terminal [99, 97, 98], .nonTerminal 0]⟩], 0, [], 1⟩ := by
    constructor
    · decide
    · intro rule member id inside
      simp only [mem_cons, not_mem_nil, or_false] at member
      rcases member with rfl | rfl
      · simp only [mem_cons, not_mem_nil, or_false, reduceCtorEq] at inside
      · simp only [mem_cons, not_mem_nil, or_false, reduceCtorEq, false_or, Symbol.nonTerminal.injEq] at inside
        subst inside
        decide
  exact ⟨bounded, by decide, (normaliseTerminals_exact _ bounded).2.1 0 (by decide)⟩

end Pictor.Grammar
