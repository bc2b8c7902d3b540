import Mathlib.Data.List.TakeWhile

namespace Pictor.Backtracking
open List

/-- A repeated class takes as much as it can, and an optional part is taken if it can be. -/
inductive Pattern (Symbol : Type) where
  | one (inside : Symbol → Bool)
  | many (inside : Symbol → Bool)
  | seq (first second : Pattern Symbol)
  | alt (first second : Pattern Symbol)
  | optional (pattern : Pattern Symbol)
  /-- No symbol of the class follows. -/
  | notBefore (inside : Symbol → Bool)

variable {Symbol : Type}

def manyEnds (inside : Symbol → Bool) : List Symbol → List (List Symbol)
  | [] => [[]]
  | symbol :: text => if inside symbol then manyEnds inside text ++ [symbol :: text] else [symbol :: text]

/-- What may follow a match at the start of a text, the preferred match first. -/
def ends : Pattern Symbol → List Symbol → List (List Symbol)
  | .one inside, text =>
      match text with
      | [] => []
      | symbol :: rest => if inside symbol then [rest] else []
  | .many inside, text => manyEnds inside text
  | .seq first second, text => (ends first text).flatMap (ends second)
  | .alt first second, text => ends first text ++ ends second text
  | .optional pattern, text => ends pattern text ++ [text]
  | .notBefore inside, text => if text.head?.any inside then [] else [text]

/-- What follows the preferred match. -/
def first (pattern : Pattern Symbol) (text : List Symbol) : Option (List Symbol) := (ends pattern text).head?

/-- The leftmost match and what follows it. -/
def search (pattern : Pattern Symbol) : List Symbol → Option (List Symbol × List Symbol)
  | [] => (first pattern []).map fun rest => ([], rest)
  | symbol :: text =>
      match first pattern (symbol :: text) with
      | some rest => some ((symbol :: text).take ((symbol :: text).length - rest.length), rest)
      | none => search pattern text

def findAll (pattern : Pattern Symbol) : Nat → List Symbol → List (List Symbol)
  | 0, _ => []
  | bound + 1, text =>
      match search pattern text with
      | none => []
      | some (piece, rest) => piece :: findAll pattern bound rest

/-- The successive matches of a pattern that matches no empty text. -/
def successive (pattern : Pattern Symbol) (text : List Symbol) : List (List Symbol) :=
  findAll pattern (text.length + 1) text

def Pattern.plus (inside : Symbol → Bool) : Pattern Symbol := .seq (.one inside) (.many inside)

variable {inside : Symbol → Bool} {pattern : Pattern Symbol} {text : List Symbol}

theorem first_alt (one other : Pattern Symbol) (text : List Symbol) :
    first (.alt one other) text = (first one text).or (first other text) := head?_append

theorem first_seq (one other : Pattern Symbol) (text : List Symbol) :
    first (.seq one other) text = (ends one text).findSome? (first other) := head?_flatMap

theorem first_one_seq (inside : Symbol → Bool) (other : Pattern Symbol) (symbol : Symbol) (rest : List Symbol) :
    first (.seq (.one inside) other) (symbol :: rest) = if inside symbol then first other rest else none := by
  rw [first_seq, ends]
  cases inside symbol <;> simp

theorem first_optional_seq (one other : Pattern Symbol) (text : List Symbol) :
    first (.seq (.optional one) other) text = (first (.seq one other) text).or (first other text) := by
  rw [first_seq, first_seq, ends, findSome?_append, findSome?_singleton]

theorem head_manyEnds (inside : Symbol → Bool) (text : List Symbol) :
    (manyEnds inside text).head? = some (text.dropWhile inside) := by
  induction text with
  | nil => rfl
  | cons symbol text ih =>
      rw [manyEnds, dropWhile_cons]
      cases inside symbol with
      | true => rw [if_pos rfl, if_pos rfl, head?_append, ih, Option.some_or]
      | false => rfl

theorem first_many (inside : Symbol → Bool) (text : List Symbol) :
    first (.many inside) text = some (text.dropWhile inside) := head_manyEnds inside text

theorem first_plus (inside : Symbol → Bool) (text : List Symbol) :
    first (.plus inside) text = if text.head?.any inside then some (text.dropWhile inside) else none := by
  cases text with
  | nil => rfl
  | cons symbol rest =>
      rw [Pattern.plus, first_one_seq, first_many, dropWhile_cons, head?_cons, Option.any_some]
      cases inside symbol <;> rfl

/-- A repeated class behind a match takes as much as it can. -/
theorem first_seq_many (one : Pattern Symbol) (inside : Symbol → Bool) (text : List Symbol) :
    first (.seq one (.many inside)) text = (first one text).map (List.dropWhile inside) := by
  rw [first_seq, first]
  cases ends one text with
  | nil => rfl
  | cons rest others => rw [findSome?_cons, first_many, head?_cons, Option.map_some]

/-- A class that is followed by something gives back what it took, the last symbol first. -/
theorem findSome_manyEnds {Result : Type} (inside : Symbol → Bool) (next : List Symbol → Option Result)
    (symbol : Symbol) (rest : List Symbol) : (manyEnds inside (symbol :: rest)).findSome? next =
      if inside symbol then ((manyEnds inside rest).findSome? next).or (next (symbol :: rest))
      else next (symbol :: rest) := by
  rw [manyEnds]
  cases inside symbol with
  | true => rw [if_pos rfl, if_pos rfl, findSome?_append, findSome?_singleton]
  | false => exact findSome?_singleton

variable {rest : List Symbol}

/-- A match that is preferred at the start of a text is the next one. -/
theorem search_eq (nonempty : text ≠ []) (found : first pattern text = some rest) :
    search pattern text = some (text.take (text.length - rest.length), rest) := by
  cases text with
  | nil => exact absurd rfl nonempty
  | cons symbol text => rw [search, found]

theorem manyEnds_suffix (member : rest ∈ manyEnds inside text) : rest <:+ text := by
  induction text with
  | nil =>
      cases mem_singleton.mp member
      exact suffix_rfl
  | cons symbol text ih =>
      rw [manyEnds] at member
      split at member
      · rcases mem_append.mp member with later | whole
        · exact (ih later).trans (suffix_cons symbol text)
        · cases mem_singleton.mp whole
          exact suffix_rfl
      · cases mem_singleton.mp member
        exact suffix_rfl

/-- What follows a match is the end of the text. -/
theorem ends_suffix (member : rest ∈ ends pattern text) : rest <:+ text := by
  induction pattern generalizing text rest with
  | one inside =>
      cases text with
      | nil => cases member
      | cons symbol text =>
          rw [ends] at member
          split at member
          · rw [mem_singleton.mp member]
            exact suffix_cons symbol text
          · cases member
  | many inside => exact manyEnds_suffix member
  | seq one other ih ih' =>
      obtain ⟨middle, before, after⟩ := mem_flatMap.mp member
      exact (ih' after).trans (ih before)
  | alt one other ih ih' => exact (mem_append.mp member).elim ih ih'
  | optional pattern ih =>
      rcases mem_append.mp member with taken | skipped
      · exact ih taken
      · cases mem_singleton.mp skipped
        exact suffix_rfl
  | notBefore inside =>
      rw [ends] at member
      split at member
      · cases member
      · cases mem_singleton.mp member
        exact suffix_rfl

theorem first_suffix (found : first pattern text = some rest) : rest <:+ text :=
  ends_suffix (mem_of_head? found)

end Pictor.Backtracking
