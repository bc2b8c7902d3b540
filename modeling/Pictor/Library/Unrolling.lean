import Mathlib.Control.Functor

namespace Pictor
open List

variable {Token Failure : Type} (next : List Token → Except Failure (Option Token))

/-- The tokens after a context, up to the stop of the function or the end of the budget. -/
def unroll : Nat → List Token → Except Failure (List Token)
  | 0, _ => .ok []
  | budget + 1, context =>
      match next context with
      | .error failure => .error failure
      | .ok none => .ok []
      | .ok (some token) => (unroll budget (context ++ [token])).map (token :: ·)

/-- The tokens so far are the start of an unrolling whose rest is still open. -/
def UnrolledSoFar (budget : Nat) (context done : List Token) : Prop :=
  unroll next budget context =
    (unroll next (budget - done.length) (context ++ done)).map (done ++ ·)

variable {next} {budget : Nat} {context done : List Token}

theorem unrolledSoFar_nil : UnrolledSoFar next budget context [] := by
  rw [UnrolledSoFar, append_nil, length_nil, Nat.sub_zero]
  cases unroll next budget context <;> rfl

section Step

variable (soFar : UnrolledSoFar next budget context done) (unfinished : done.length < budget)
include soFar unfinished

theorem UnrolledSoFar.stop (stopped : next (context ++ done) = .ok none) : unroll next budget context = .ok done := by
  obtain ⟨left, rest⟩ := Nat.exists_eq_succ_of_ne_zero (Nat.sub_ne_zero_of_lt unfinished)
  rw [soFar, rest, unroll, stopped]
  change Except.ok (done ++ []) = _
  rw [append_nil]

theorem UnrolledSoFar.token {token : Token} (extended : next (context ++ done) = .ok (some token)) :
    UnrolledSoFar next budget context (done ++ [token]) := by
  obtain ⟨left, rest⟩ := Nat.exists_eq_succ_of_ne_zero (Nat.sub_ne_zero_of_lt unfinished)
  have shorter : budget - (done ++ [token]).length = left := by
    rw [length_append, length_singleton]
    omega
  have further : unroll next (left + 1) (context ++ done) =
      (unroll next left (context ++ done ++ [token])).map (token :: ·) := by
    rw [unroll, extended]
  rw [UnrolledSoFar, soFar, rest, further, shorter, ← append_assoc]
  cases unroll next left (context ++ done ++ [token]) with
  | error failure => rfl
  | ok tokens =>
      change Except.ok (done ++ token :: tokens) = Except.ok (done ++ [token] ++ tokens)
      rw [append_assoc, singleton_append]

end Step

theorem UnrolledSoFar.full (soFar : UnrolledSoFar next budget context done)
    (full : budget ≤ done.length) : unroll next budget context = .ok done := by
  rw [soFar, Nat.sub_eq_zero_of_le full, unroll]
  change Except.ok (done ++ []) = _
  rw [append_nil]

section Extends

variable (next) in
/-- Each of the tokens is the one that follows the tokens before it. -/
def Extends : List Token → List Token → Prop
  | _, [] => True
  | context, token :: rest => next context = .ok (some token) ∧ Extends (context ++ [token]) rest

theorem Extends.append {later : List Token} (first : Extends next context done)
    (second : Extends next (context ++ done) later) : Extends next context (done ++ later) := by
  induction done generalizing context with
  | nil => rwa [append_nil] at second
  | cons token done ih =>
      refine ⟨first.1, ih first.2 ?_⟩
      rwa [append_assoc, singleton_append]

/-- The tokens are the unrolling if they follow each other up to the stop or the end of the budget. -/
theorem unroll_eq_ok_iff : unroll next budget context = .ok done ↔ Extends next context done ∧
    (done.length = budget ∨ done.length < budget ∧ next (context ++ done) = .ok none) := by
  induction budget generalizing context done with
  | zero =>
      rw [unroll]
      cases done with
      | nil => exact ⟨fun _ => ⟨trivial, Or.inl rfl⟩, fun _ => rfl⟩
      | cons token rest =>
          refine ⟨fun wrong => (nomatch wrong), fun ⟨_, ends⟩ => ?_⟩
          rcases ends with full | ⟨short, _⟩
          · cases full
          · cases short
  | succ budget ih =>
      rw [unroll]
      cases step : next context with
      | error failure =>
          refine ⟨fun wrong => (nomatch wrong), fun ⟨extends', ends⟩ => ?_⟩
          cases done with
          | nil =>
              rw [append_nil, step] at ends
              rcases ends with full | ⟨_, stopped⟩
              · cases full
              · cases stopped
          | cons token rest =>
              rw [Extends, step] at extends'
              cases extends'.1
      | ok found =>
          cases found with
          | none =>
              cases done with
              | nil =>
                  rw [append_nil, step]
                  exact ⟨fun _ => ⟨trivial, Or.inr ⟨Nat.succ_pos budget, rfl⟩⟩, fun _ => rfl⟩
              | cons token rest =>
                  refine ⟨fun wrong => (nomatch wrong), fun ⟨extends', _⟩ => ?_⟩
                  rw [Extends, step] at extends'
                  cases extends'.1
          | some token =>
              have mapped : (unroll next budget (context ++ [token])).map (token :: ·) = .ok done ↔
                  ∃ rest, unroll next budget (context ++ [token]) = .ok rest ∧ done = token :: rest := by
                cases unroll next budget (context ++ [token]) with
                | error failure => simp [Except.map]
                | ok tokens => simp [Except.map, eq_comm]
              change (unroll next budget (context ++ [token])).map (token :: ·) = .ok done ↔ _
              rw [mapped]
              constructor
              · rintro ⟨rest, unrolled, rfl⟩
                obtain ⟨extended, ends⟩ := ih.mp unrolled
                rw [append_assoc, singleton_append] at ends
                refine ⟨⟨step, extended⟩, ?_⟩
                rcases ends with full | ⟨short, stopped⟩
                · exact Or.inl (congrArg (· + 1) full)
                · exact Or.inr ⟨Nat.succ_lt_succ short, stopped⟩
              · rintro ⟨extended, ends⟩
                cases done with
                | nil =>
                    rw [append_nil, step] at ends
                    rcases ends with full | ⟨_, stopped⟩
                    · cases full
                    · cases stopped
                | cons first rest =>
                    rw [Extends, step] at extended
                    obtain ⟨same, extended⟩ := extended
                    cases same
                    refine ⟨rest, ih.mpr ⟨extended, ?_⟩, rfl⟩
                    rw [append_assoc, singleton_append]
                    rcases ends with full | ⟨short, stopped⟩
                    · exact Or.inl (Nat.succ.inj full)
                    · exact Or.inr ⟨Nat.lt_of_succ_lt_succ short, stopped⟩

end Extends

end Pictor
