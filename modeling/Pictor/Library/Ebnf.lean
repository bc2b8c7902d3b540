import Mathlib.Data.List.Basic

namespace Pictor

inductive Ebnf (Name Letter : Type) where
  | empty
  | literal (word : List Letter)
  | oneOf (letters : List Letter)
  | ref (name : Name)
  | seq (first second : Ebnf Name Letter)
  | alt (first second : Ebnf Name Letter)
  | group (body : Ebnf Name Letter)
  | optional (body : Ebnf Name Letter)
  | star (body : Ebnf Name Letter)
  | plus (body : Ebnf Name Letter)
  deriving DecidableEq, Repr

/-- A name may have several definitions. -/
abbrev Definitions (Name Letter : Type) := List (Name × Ebnf Name Letter)

namespace Ebnf

variable {Name Letter : Type}

/-- An expression matches a word under the definitions of its names. -/
inductive Matches (defs : Definitions Name Letter) : Ebnf Name Letter → List Letter → Prop
  | empty : Matches defs empty []
  | literal {word} : Matches defs (literal word) word
  | oneOf {letters letter} (member : letter ∈ letters) : Matches defs (oneOf letters) [letter]
  | ref {name body word} (defined : (name, body) ∈ defs) (inner : Matches defs body word) :
      Matches defs (ref name) word
  | seq {first second u v} (left : Matches defs first u) (right : Matches defs second v) :
      Matches defs (seq first second) (u ++ v)
  | altLeft {first second word} (inner : Matches defs first word) : Matches defs (alt first second) word
  | altRight {first second word} (inner : Matches defs second word) : Matches defs (alt first second) word
  | group {body word} (inner : Matches defs body word) : Matches defs (group body) word
  | optionalNone {body} : Matches defs (optional body) []
  | optionalSome {body word} (inner : Matches defs body word) : Matches defs (optional body) word
  | starNone {body} : Matches defs (star body) []
  | starMore {body u v} (first : Matches defs body u) (rest : Matches defs (star body) v) :
      Matches defs (star body) (u ++ v)
  | plus {body u v} (first : Matches defs body u) (rest : Matches defs (star body) v) :
      Matches defs (plus body) (u ++ v)

end Ebnf

end Pictor
