import Mathlib.Data.List.Infix
import Pictor.Library.Utf8

namespace Pictor.TextSearch
open List

variable {Letter : Type} [DecidableEq Letter]

/-- The text in front of the first place of the mark and the text behind it. -/
def split (mark : List Letter) : List Letter → Option (List Letter × List Letter)
  | [] => if mark = [] then some ([], []) else none
  | c :: text =>
      if mark <+: c :: text then some ([], (c :: text).drop mark.length)
      else (split mark text).map fun parts => (c :: parts.1, parts.2)

variable {mark text before after before' after' : List Letter}

theorem split_prefix (mark after : List Letter) : split mark (mark ++ after) = some ([], after) := by
  cases parts : mark ++ after with
  | nil =>
      obtain ⟨rfl, rfl⟩ := append_eq_nil_iff.mp parts
      rfl
  | cons c text =>
      rw [split, ← parts, if_pos (List.prefix_append mark after), drop_left]

/-- The found place holds the mark, and no earlier place does. -/
theorem split_spec (found : split mark text = some (before, after)) : text = before ++ (mark ++ after) ∧
    ∀ before' after', text = before' ++ (mark ++ after') → before.length ≤ before'.length := by
  induction text generalizing before with
  | nil =>
      rw [split] at found
      by_cases empty : mark = []
      · rw [if_pos empty] at found
        cases found
        rw [empty]
        exact ⟨rfl, fun _ _ _ => Nat.zero_le _⟩
      · rw [if_neg empty] at found
        cases found
  | cons c text ih =>
      rw [split] at found
      by_cases here : mark <+: c :: text
      · rw [if_pos here] at found
        cases found
        obtain ⟨rest, parts⟩ := here
        rw [← parts, drop_left]
        exact ⟨rfl, fun _ _ _ => Nat.zero_le _⟩
      · rw [if_neg here, Option.map_eq_some_iff] at found
        obtain ⟨⟨front, back⟩, found, same⟩ := found
        cases same
        obtain ⟨rfl, first⟩ := ih found
        refine ⟨rfl, fun before' after' parts => ?_⟩
        cases before' with
        | nil => exact absurd ⟨after', parts.symm⟩ here
        | cons c' before' => exact Nat.succ_le_succ (first before' after' (List.cons.inj parts).2)

/-- A mark that occurs is found. -/
theorem split_exists (before after : List Letter) :
    ∃ before' after', split mark (before ++ (mark ++ after)) = some (before', after') := by
  induction before with
  | nil => exact ⟨_, _, split_prefix mark after⟩
  | cons c before ih =>
      rw [cons_append, split]
      by_cases here : mark <+: c :: (before ++ (mark ++ after))
      · rw [if_pos here]
        exact ⟨_, _, rfl⟩
      · obtain ⟨before', after', found⟩ := ih
        rw [if_neg here, found]
        exact ⟨_, _, rfl⟩

omit [DecidableEq Letter] in
/-- A mark lies on one side of a letter that it does not hold. -/
theorem occurs_beside {c : Letter} {front back : List Letter} (apart : c ∉ mark)
    (place : front ++ c :: back = before ++ (mark ++ after)) :
    (∃ middle, front = before ++ (mark ++ middle) ∧ after = middle ++ c :: back) ∨
    ∃ middle, before = front ++ c :: middle ∧ back = middle ++ (mark ++ after) := by
  rcases append_eq_append_iff.mp place with ⟨middle, rfl, tail⟩ | ⟨middle, rfl, tail⟩
  · cases middle with
    | nil =>
        rw [nil_append] at tail
        cases mark with
        | nil => exact Or.inl ⟨[], by simp, tail.symm⟩
        | cons c' mark =>
            obtain ⟨rfl, _⟩ := List.cons.inj tail
            exact absurd mem_cons_self apart
    | cons c' middle =>
        obtain ⟨rfl, rfl⟩ := List.cons.inj tail
        exact Or.inr ⟨middle, rfl, rfl⟩
  · rcases append_eq_append_iff.mp tail with ⟨rest, rfl, rfl⟩ | ⟨rest, rfl, same⟩
    · exact Or.inl ⟨rest, rfl, rfl⟩
    · cases rest with
      | nil => exact Or.inl ⟨[], by simp, same.symm⟩
      | cons c' rest =>
          obtain ⟨rfl, _⟩ := List.cons.inj same
          exact absurd (mem_append_right _ mem_cons_self) apart

end Pictor.TextSearch

namespace Pictor.TextSlice
open Utf8 List

/-- The text before a byte offset and the text from it on. An offset within a character has none. -/
def splitAt? : Nat → List Char → Option (List Char × List Char)
  | 0, text => some ([], text)
  | _ + 1, [] => none
  | offset + 1, c :: text =>
      if c.utf8Size ≤ offset + 1 then
        (splitAt? (offset + 1 - c.utf8Size) text).map fun parts => (c :: parts.1, parts.2)
      else none

/-- The text between two byte offsets. -/
def slice (text : List Char) (start stop : Nat) : Option (List Char) :=
  (splitAt? stop text).bind fun parts => (splitAt? start parts.1).map Prod.snd

def sliceFrom (text : List Char) (start : Nat) : Option (List Char) := (splitAt? start text).map Prod.snd

variable {text front back piece : List Char} {offset start stop : Nat}

@[simp] theorem size_append (first second : List Char) : size (first ++ second) = size first + size second := by
  rw [size, encode_append, length_append, size, size]

theorem splitAt?_append (front back : List Char) : splitAt? (size front) (front ++ back) = some (front, back) := by
  induction front with
  | nil => rw [size_nil, splitAt?, nil_append]
  | cons c front ih =>
      obtain ⟨width, same⟩ : ∃ width, c.utf8Size = width + 1 := ⟨c.utf8Size - 1, by have := c.utf8Size_pos; omega⟩
      rw [size_cons, same, Nat.add_right_comm, cons_append, splitAt?, if_pos (by omega)]
      rw [show width + size front + 1 - c.utf8Size = size front by omega, ih]
      rfl

theorem splitAt?_eq_some : splitAt? offset text = some (front, back) ↔ text = front ++ back ∧ size front = offset := by
  constructor
  · intro found
    induction text generalizing offset front with
    | nil =>
        cases offset with
        | zero =>
            cases found
            exact ⟨rfl, rfl⟩
        | succ offset => cases found
    | cons c text ih =>
        cases offset with
        | zero =>
            cases found
            exact ⟨rfl, rfl⟩
        | succ offset =>
            rw [splitAt?] at found
            split at found
            case isFalse => cases found
            case isTrue fits =>
              obtain ⟨⟨first, second⟩, inner, same⟩ := Option.map_eq_some_iff.mp found
              cases same
              obtain ⟨rfl, counted⟩ := ih inner
              refine ⟨rfl, ?_⟩
              rw [size_cons, counted]
              omega
  · rintro ⟨rfl, rfl⟩
    exact splitAt?_append front back

/-- An offset behind the end is no place of the text. -/
theorem splitAt?_eq_none (behind : size text < offset) : splitAt? offset text = none := by
  refine Option.eq_none_iff_forall_ne_some.mpr ?_
  rintro ⟨front, back⟩ found
  obtain ⟨rfl, counted⟩ := splitAt?_eq_some.mp found
  rw [size_append] at behind
  omega

theorem slice_parts (front piece back : List Char) :
    slice (front ++ (piece ++ back)) (size front) (size front + size piece) = some piece := by
  rw [slice, ← append_assoc, ← size_append, splitAt?_append, Option.bind_some, splitAt?_append]
  rfl

theorem sliceFrom_append (front back : List Char) : sliceFrom (front ++ back) (size front) = some back := by
  rw [sliceFrom, splitAt?_append]
  rfl

section Weaving

variable {Letter : Type}

/-- Pieces one after another, each behind its gap, and a last gap. -/
def weave : List (List Letter × List Letter) → List Letter → List Letter
  | [], last => last
  | (gap, piece) :: pairs, last => gap ++ (piece ++ weave pairs last)

/-- A text that holds pieces one after another, with gaps of some kind around them. -/
def Woven (gap : List Letter → Prop) (pieces : List (List Letter)) (text : List Letter) : Prop :=
  ∃ pairs last, text = weave pairs last ∧ pairs.map Prod.snd = pieces ∧ (∀ pair ∈ pairs, gap pair.1) ∧ gap last

variable {gap gap' : List Letter → Prop} {pieces pieces' : List (List Letter)} {letters letters' : List Letter}

theorem weave_last (pairs : List (List Letter × List Letter)) (last last' : List Letter) :
    weave pairs last ++ last' = weave pairs (last ++ last') := by
  induction pairs with
  | nil => rfl
  | cons pair pairs ih =>
      rw [weave, weave, ← ih]
      simp only [append_assoc]

namespace Woven

theorem nil (only : gap letters) : Woven gap [] letters := ⟨[], letters, rfl, rfl, nofun, only⟩

theorem cons (before : gap letters) (piece : List Letter) (rest : Woven gap pieces letters') :
    Woven gap (piece :: pieces) (letters ++ (piece ++ letters')) := by
  obtain ⟨pairs, last, rfl, rfl, each, final⟩ := rest
  refine ⟨(letters, piece) :: pairs, last, rfl, rfl, ?_, final⟩
  rintro pair (_ | ⟨_, member⟩)
  · exact before
  · exact each pair member

theorem single (empty : gap []) (piece : List Letter) : Woven gap [piece] piece := by
  have woven := Woven.cons empty piece (Woven.nil empty)
  rwa [append_nil, nil_append] at woven

/-- Two texts with pieces stand one behind the other if gaps can be joined. -/
theorem append (joined : ∀ first second, gap first → gap second → gap (first ++ second))
    (woven : Woven gap pieces letters) (woven' : Woven gap pieces' letters') :
    Woven gap (pieces ++ pieces') (letters ++ letters') := by
  obtain ⟨pairs, last, rfl, rfl, each, final⟩ := woven
  obtain ⟨pairs', last', rfl, rfl, each', final'⟩ := woven'
  rw [weave_last]
  induction pairs with
  | nil =>
      cases pairs' with
      | nil => exact .nil (joined _ _ final final')
      | cons pair pairs' =>
          have parts : last ++ weave (pair :: pairs') last' = (last ++ pair.1) ++ (pair.2 ++ weave pairs' last') := by
            rw [weave, append_assoc]
          rw [weave, parts]
          exact .cons (joined _ _ final (each' pair mem_cons_self)) pair.2
            ⟨pairs', last', rfl, rfl, fun other member => each' other (mem_cons_of_mem _ member), final'⟩
  | cons pair pairs ih =>
      exact .cons (each pair mem_cons_self) pair.2
        (ih fun other member => each other (mem_cons_of_mem _ member))

/-- A gap behind the pieces belongs to the last gap. -/
theorem behind (joined : ∀ first second, gap first → gap second → gap (first ++ second))
    (woven : Woven gap pieces letters) (after : gap letters') : Woven gap pieces (letters ++ letters') := by
  have both := woven.append joined (Woven.nil after)
  rwa [append_nil] at both

/-- Pieces side by side have empty gaps. -/
theorem flatten (empty : gap []) (pieces : List (List Letter)) : Woven gap pieces pieces.flatten := by
  induction pieces with
  | nil => exact .nil empty
  | cons piece pieces ih => exact .cons empty piece ih

/-- Empty pieces can be left out. -/
theorem filter (joined : ∀ first second, gap first → gap second → gap (first ++ second))
    (woven : Woven gap pieces letters) : Woven gap (pieces.filter fun piece => !piece.isEmpty) letters := by
  obtain ⟨pairs, last, rfl, rfl, each, final⟩ := woven
  induction pairs with
  | nil => exact .nil final
  | cons pair pairs ih =>
      have before := each pair mem_cons_self
      have rest := ih fun other member => each other (mem_cons_of_mem _ member)
      rw [weave, map_cons, filter_cons]
      cases piece : pair.2 with
      | nil =>
          have both := (Woven.nil before).append joined rest
          rwa [nil_append] at both
      | cons c tail => exact .cons before _ rest

end Woven

end Weaving

end Pictor.TextSlice
