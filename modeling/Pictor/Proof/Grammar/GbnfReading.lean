import Pictor.Proof.Grammar.GbnfRules

namespace Pictor.Gbnf
open List

def newlines (count : Nat) : List Token := List.replicate count .newline

/-- What may follow an atom. -/
inductive Quantifier where
  | once
  | optional
  | star
  | plus

namespace Quantifier

def tokens : Quantifier → List Token
  | once => []
  | optional => [.question]
  | star => [.star]
  | plus => [.plus]

def apply (e : Expr) : Quantifier → Expr
  | once => e
  | optional => .optional e
  | star => .star e
  | plus => .plus e

end Quantifier

inductive Level where
  | atom
  | item
  | sequence
  | body

/-- The tokens of each part of a rule. Line breaks may stand only around a bar. -/
inductive Reads : Level → List Token → Expr → Prop
  | literal {bytes} : Reads .atom [.stringLit bytes] (.literal bytes)
  | oneOf {bytes} : Reads .atom [.charClass bytes] (.oneOf bytes)
  | ref {name} : Reads .atom [.ident name] (.ref name)
  | group {tokens body} (inner : Reads .body tokens body) : Reads .atom (.lParen :: (tokens ++ [.rParen])) (.group body)
  | item {tokens body} (inner : Reads .atom tokens body) (quantifier : Quantifier) :
      Reads .item (tokens ++ quantifier.tokens) (quantifier.apply body)
  | empty : Reads .sequence [] .empty
  | seq {front back first second} (left : Reads .item front first) (right : Reads .sequence back second) :
      Reads .sequence (front ++ back) (.seq first second)
  | last {tokens body} (inner : Reads .sequence tokens body) : Reads .body tokens body
  | alt {front back first second} (before behind : Nat) (left : Reads .sequence front first)
      (right : Reads .body back second) :
      Reads .body (front ++ (newlines before ++ .pipe :: (newlines behind ++ back))) (.alt first second)

/-- The tokens of the rules of a text. -/
inductive ReadsRules : List Token → RuleDefs → Prop
  | none (breaks : Nat) : ReadsRules (newlines breaks) []
  | rule {name tokens rest body defs} (before behind : Nat) (inner : Reads .body tokens body)
      (others : ReadsRules rest defs) :
      ReadsRules (newlines before ++ .ident name :: (newlines behind ++ .assign :: (tokens ++ rest))) ((name, body) :: defs)

variable {tokens tokens' rest rest' front back : List Token} {token : Token} {e e' : Expr} {level : Level}

theorem skipNewlines_newlines (count : Nat) (tokens : List Token) :
    skipNewlines (newlines count ++ tokens) = skipNewlines tokens := by
  rw [skipNewlines, newlines, dropWhile_append_of_pos]
  · rfl
  · intro token member
    rw [eq_of_mem_replicate member]
    rfl

theorem skipNewlines_none (count : Nat) : skipNewlines (newlines count) = [] := by
  rw [← append_nil (newlines count), skipNewlines_newlines]
  rfl

theorem skipNewlines_cons (solid : decide (token = .newline) = false) (tokens : List Token) :
    skipNewlines (token :: tokens) = token :: tokens := by
  rw [skipNewlines, dropWhile_cons_of_neg (by rw [solid]; decide)]

/-- Line breaks in front are all that is skipped. -/
theorem skipNewlines_split (tokens : List Token) : ∃ count, tokens = newlines count ++ skipNewlines tokens := by
  refine ⟨(tokens.takeWhile fun token => token = .newline).length, ?_⟩
  have breaks : tokens.takeWhile (fun token => token = .newline) =
      newlines (tokens.takeWhile fun token => token = .newline).length := by
    rw [newlines, eq_replicate_iff]
    exact ⟨rfl, fun token member => by simpa using mem_takeWhile_imp member⟩
  rw [← breaks, skipNewlines, takeWhile_append_dropWhile]

theorem skipNewlines_idem (tokens : List Token) : skipNewlines (skipNewlines tokens) = skipNewlines tokens := by
  obtain ⟨count, parts⟩ := skipNewlines_split tokens
  have skipped := skipNewlines_newlines count (skipNewlines tokens)
  rwa [← parts, eq_comm] at skipped

def opensItem : Token → Bool
  | .stringLit _ | .charClass _ | .ident _ | .lParen => true
  | _ => false

theorem skipNewlines_opens (opens : opensItem token = true) (tokens : List Token) :
    skipNewlines (token :: tokens) = token :: tokens := by
  refine skipNewlines_cons (decide_eq_false ?_) tokens
  rintro rfl
  cases opens

theorem Reads.atom_opens (reads : Reads .atom tokens e) : ∃ token rest, tokens = token :: rest ∧ opensItem token = true := by
  cases reads <;> exact ⟨_, _, rfl, rfl⟩

theorem Reads.item_opens (reads : Reads .item tokens e) : ∃ token rest, tokens = token :: rest ∧ opensItem token = true := by
  cases reads with
  | item inner quantifier =>
      obtain ⟨token, rest, rfl, opens⟩ := inner.atom_opens
      exact ⟨token, rest ++ quantifier.tokens, rfl, opens⟩

def isQuantifier : Token → Bool
  | .star | .plus | .question => true
  | _ => false

/-- Behind a sequence, no item starts: there is the end, a bar, a bracket, or the head of a rule. -/
def Closes (rest : List Token) : Prop := ∀ token tail, skipNewlines rest = token :: tail →
  token = .eof ∨ token = .pipe ∨ token = .rParen ∨
    ∃ name, token = .ident name ∧ (skipNewlines tail).head? = some .assign

theorem Closes.of_skip (closes : Closes rest) : Closes (skipNewlines rest) := by
  intro token tail same
  rw [skipNewlines_idem] at same
  exact closes token tail same

theorem Closes.noQuantifier (closes : Closes rest) : ∀ token, rest.head? = some token → isQuantifier token = false := by
  intro token first
  cases rest with
  | nil => cases first
  | cons other rest =>
      cases first
      by_cases solid : token = .newline
      · subst solid
        rfl
      · rcases closes token rest (skipNewlines_cons (decide_eq_false solid) rest) with rfl | rfl | rfl | ⟨name, rfl, _⟩ <;> rfl

theorem Closes.noAssign (closes : Closes rest) : (skipNewlines rest).head? ≠ some .assign := by
  intro first
  obtain ⟨tail, same⟩ := head?_eq_some_iff.mp first
  rcases closes _ tail same with wrong | wrong | wrong | ⟨name, wrong, _⟩ <;> cases wrong

theorem Reads.sequence_noAssign (reads : Reads .sequence tokens e) (closes : Closes rest) :
    (skipNewlines (tokens ++ rest)).head? ≠ some .assign := by
  cases reads with
  | empty => exact closes.noAssign
  | seq left right =>
      obtain ⟨token, tail, rfl, opens⟩ := left.item_opens
      rw [cons_append, cons_append, skipNewlines_opens opens, head?_cons]
      rintro ⟨⟩
      cases opens

theorem Reads.item_skip (left : Reads .item front e) (tokens : List Token) :
    skipNewlines (front ++ tokens) = front ++ tokens := by
  obtain ⟨token, tail, rfl, opens⟩ := left.item_opens
  exact skipNewlines_opens opens _

/-- A sequence with an item does not start where a sequence ends. -/
theorem Reads.seq_open (left : Reads .item front e) (right : Reads .sequence back e') (closes : Closes rest) :
    ¬ Closes (front ++ (back ++ rest)) := by
  intro wrong
  obtain ⟨token, tail, parts, opens⟩ := left.item_opens
  have start : skipNewlines (front ++ (back ++ rest)) = token :: (tail ++ (back ++ rest)) := by
    rw [parts, cons_append, skipNewlines_opens opens]
  rcases wrong _ _ start with rfl | rfl | rfl | ⟨name, rfl, assigned⟩
  · cases opens
  · cases opens
  · cases opens
  · cases left with
    | item inner quantifier =>
        cases inner with
        | ref =>
            obtain ⟨_, rfl⟩ := List.cons.inj parts
            cases quantifier with
            | once => exact right.sequence_noAssign closes assigned
            | _ => cases assigned
        | _ => cases (List.cons.inj parts).1

/-- What may follow each part. -/
def Follows : Level → List Token → Prop
  | .atom, _ => True
  | .item, rest => ∀ token, rest.head? = some token → isQuantifier token = false
  | .sequence, rest => Closes rest
  | .body, rest => Closes rest ∧ (skipNewlines rest).head? ≠ some .pipe

/-- Line breaks in front of a body do not matter. -/
def start : Level → List Token → List Token
  | .body, tokens => skipNewlines tokens
  | _, tokens => tokens

theorem Reads.sequence_follows (reads : Reads .sequence tokens e) (closes : Closes rest) :
    Follows .item (tokens ++ rest) := by
  cases reads with
  | empty => exact closes.noQuantifier
  | seq left right =>
      obtain ⟨token, tail, rfl, opens⟩ := left.item_opens
      rintro other ⟨⟩
      cases token <;> simp_all [opensItem, isQuantifier]

theorem closes_pipe (before : Nat) (tokens : List Token) : Closes (newlines before ++ .pipe :: tokens) := by
  intro token tail same
  rw [skipNewlines_newlines, skipNewlines_cons rfl] at same
  cases same
  exact Or.inr (Or.inl rfl)

/-- A first alternative is determined by what follows the line breaks. -/
theorem Reads.sequence_unique (reads : Reads .sequence tokens e) (reads' : Reads .sequence tokens' e')
    (closes : Closes rest) (closes' : Closes rest') (same : skipNewlines (tokens ++ rest) = skipNewlines (tokens' ++ rest'))
    (unique : tokens ++ rest = tokens' ++ rest' → e = e' ∧ rest = rest') :
    e = e' ∧ skipNewlines rest = skipNewlines rest' := by
  cases reads with
  | empty =>
      cases reads' with
      | empty => exact ⟨rfl, same⟩
      | seq left right =>
          rw [append_assoc, nil_append, left.item_skip] at same
          exact absurd (same ▸ closes.of_skip) (left.seq_open right closes')
  | seq left right =>
      rw [append_assoc, left.item_skip] at same
      cases reads' with
      | empty =>
          rw [nil_append] at same
          exact absurd (same ▸ closes'.of_skip) (left.seq_open right closes)
      | seq left' right' =>
          rw [append_assoc _ _ rest', left'.item_skip, ← append_assoc, ← append_assoc] at same
          obtain ⟨equal, left⟩ := unique same
          exact ⟨equal, congrArg skipNewlines left⟩

theorem Quantifier.unique (quantifier : Quantifier) {quantifier' : Quantifier} (follows : Follows .item rest)
    (follows' : Follows .item rest') (same : quantifier.tokens ++ rest = quantifier'.tokens ++ rest') :
    quantifier = quantifier' ∧ rest = rest' := by
  have other {token : Token} {rest tail : List Token} (follows : Follows .item rest) (same : rest = token :: tail) :
      isQuantifier token = false := follows token (by rw [same]; rfl)
  cases quantifier <;> cases quantifier'
  case once.once => exact ⟨rfl, same⟩
  case once.optional | once.star | once.plus => cases other follows same
  case optional.once | star.once | plus.once => cases other follows' same.symm
  case optional.optional | star.star | plus.plus => exact ⟨rfl, (List.cons.inj same).2⟩
  all_goals cases (List.cons.inj same).1

theorem alt_shift (before behind : Nat) (front back rest : List Token) :
    front ++ (newlines before ++ .pipe :: (newlines behind ++ back)) ++ rest =
      front ++ (newlines before ++ .pipe :: (newlines behind ++ (back ++ rest))) := by
  simp only [append_assoc, cons_append]

/-- A part has one reading. -/
theorem Reads.unique (reads : Reads level tokens e) (reads' : Reads level tokens' e') (follows : Follows level rest)
    (follows' : Follows level rest') (same : start level (tokens ++ rest) = start level (tokens' ++ rest')) :
    e = e' ∧ start level rest = start level rest' := by
  induction reads generalizing tokens' e' rest rest' with
  | literal => cases reads' <;> simp_all [start]
  | oneOf => cases reads' <;> simp_all [start]
  | ref => cases reads' <;> simp_all [start]
  | group _ ih =>
      cases reads' with
      | group inner' =>
          have follows (rest : List Token) : Follows .body (.rParen :: rest) := by
            refine ⟨fun token tail first => ?_, ?_⟩
            · rw [skipNewlines_cons rfl] at first
              cases first
              exact Or.inr (Or.inr (Or.inl rfl))
            · rw [skipNewlines_cons rfl]
              exact nofun
          have inside : _ ++ [Token.rParen] ++ rest = _ ++ [Token.rParen] ++ rest' := (List.cons.inj same).2
          rw [append_assoc, append_assoc] at inside
          obtain ⟨rfl, behind⟩ := ih inner' (follows rest) (follows rest') (congrArg skipNewlines inside)
          have behind : skipNewlines (.rParen :: rest) = skipNewlines (.rParen :: rest') := behind
          rw [skipNewlines_cons rfl, skipNewlines_cons rfl] at behind
          exact ⟨rfl, (List.cons.inj behind).2⟩
      | _ => simp [start] at same
  | item _ quantifier ih =>
      cases reads' with
      | item inner' quantifier' =>
          have shown : _ ++ _ ++ rest = _ ++ _ ++ rest' := same
          rw [append_assoc, append_assoc] at shown
          obtain ⟨rfl, behind⟩ := ih inner' trivial trivial shown
          obtain ⟨rfl, left⟩ := quantifier.unique follows follows' behind
          exact ⟨rfl, left⟩
  | empty =>
      cases reads' with
      | empty => exact ⟨rfl, same⟩
      | seq left right =>
          have shown : rest = _ ++ (_ ++ rest') := same.trans (append_assoc ..)
          exact absurd (shown ▸ follows) (left.seq_open right follows')
  | seq left right ih ih' =>
      cases reads' with
      | empty =>
          have shown : rest' = _ ++ (_ ++ rest) := same.symm.trans (append_assoc ..)
          exact absurd (shown ▸ follows') (left.seq_open right follows)
      | seq left' right' =>
          rw [append_assoc, append_assoc] at same
          obtain ⟨rfl, same⟩ := ih left' (right.sequence_follows follows) (right'.sequence_follows follows') same
          obtain ⟨rfl, same⟩ := ih' right' follows follows' same
          exact ⟨rfl, same⟩
  | last inner ih =>
      cases reads' with
      | last inner' =>
          exact inner.sequence_unique inner' follows.1 follows'.1 same fun same => ih inner' follows.1 follows'.1 same
      | alt before behind left' right' =>
          rw [start, start, alt_shift] at same
          obtain ⟨_, shown⟩ := inner.sequence_unique left' follows.1 (closes_pipe before _) same
            fun same => ih left' follows.1 (closes_pipe before _) same
          rw [skipNewlines_newlines, skipNewlines_cons rfl] at shown
          exact absurd (congrArg List.head? shown) follows.2
  | alt before behind left right ih ih' =>
      cases reads' with
      | last inner' =>
          rw [start, start, alt_shift] at same
          obtain ⟨_, shown⟩ := left.sequence_unique inner' (closes_pipe before _) follows'.1 same
            fun same => ih inner' (closes_pipe before _) follows'.1 same
          rw [skipNewlines_newlines, skipNewlines_cons rfl] at shown
          exact absurd (congrArg List.head? shown.symm) follows'.2
      | alt before' behind' left' right' =>
          rw [start, start, alt_shift, alt_shift] at same
          obtain ⟨rfl, shown⟩ := left.sequence_unique left' (closes_pipe before _) (closes_pipe before' _) same
            fun same => ih left' (closes_pipe before _) (closes_pipe before' _) same
          rw [skipNewlines_newlines, skipNewlines_newlines, skipNewlines_cons rfl,
            skipNewlines_cons rfl] at shown
          have behind := congrArg skipNewlines (List.cons.inj shown).2
          rw [skipNewlines_newlines, skipNewlines_newlines] at behind
          obtain ⟨rfl, left⟩ := ih' right' follows follows' behind
          exact ⟨rfl, left⟩

/-- Behind the body of a rule, the other rules follow. -/
theorem ReadsRules.follows {defs : RuleDefs} (reads : ReadsRules tokens defs) : Follows .body tokens := by
  cases reads with
  | none breaks =>
      refine ⟨fun token tail first => ?_, ?_⟩
      · rw [skipNewlines_none] at first
        cases first
      · rw [skipNewlines_none]
        exact nofun
  | rule before behind inner others =>
      refine ⟨fun token tail first => ?_, ?_⟩
      · rw [skipNewlines_newlines, skipNewlines_cons rfl] at first
        cases first
        refine Or.inr (Or.inr (Or.inr ⟨_, rfl, ?_⟩))
        rw [skipNewlines_newlines, skipNewlines_cons rfl, head?_cons]
      · rw [skipNewlines_newlines, skipNewlines_cons rfl]
        exact nofun

/-- A stream of tokens has at most one reading. -/
theorem ReadsRules.unique {defs defs' : RuleDefs} (reads : ReadsRules tokens defs) (reads' : ReadsRules tokens' defs')
    (same : skipNewlines tokens = skipNewlines tokens') : defs = defs' := by
  induction reads generalizing tokens' defs' with
  | none breaks =>
      cases reads' with
      | none breaks' => rfl
      | rule before behind inner others =>
          rw [skipNewlines_newlines, skipNewlines_cons rfl, skipNewlines_none] at same
          cases same
  | rule before behind inner others ih =>
      cases reads' with
      | none breaks =>
          rw [skipNewlines_newlines, skipNewlines_cons rfl, skipNewlines_none] at same
          cases same
      | rule before' behind' inner' others' =>
          rw [skipNewlines_newlines, skipNewlines_newlines, skipNewlines_cons rfl, skipNewlines_cons rfl] at same
          obtain ⟨name, behind⟩ := List.cons.inj same
          obtain rfl := Token.ident.inj name
          have body := congrArg skipNewlines behind
          rw [skipNewlines_newlines, skipNewlines_newlines, skipNewlines_cons rfl, skipNewlines_cons rfl] at body
          obtain ⟨rfl, left⟩ := inner.unique inner' others.follows others'.follows
            (congrArg skipNewlines (List.cons.inj body).2)
          rw [ih others' left]

end Pictor.Gbnf
