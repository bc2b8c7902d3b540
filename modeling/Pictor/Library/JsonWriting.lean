import Pictor.Library.JsonUnique

namespace Pictor
open List

section Texts

variable {space : Char → Prop} {text rest : List Char}

theorem Spaces.suffix (spaces : Spaces space text rest) : ∃ front, text = front ++ rest ∧ ∀ c ∈ front, space c := by
  induction spaces with
  | done text => exact ⟨[], rfl, fun c member => absurd member not_mem_nil⟩
  | skip blank _ ih =>
      obtain ⟨front, rfl, each⟩ := ih
      refine ⟨_ :: front, rfl, fun c member => ?_⟩
      rcases mem_cons.mp member with rfl | later
      · exact blank
      · exact each c later

theorem Spaces.append (spaces : Spaces space text rest) (more : List Char) :
    Spaces space (text ++ more) (rest ++ more) := by
  induction spaces with
  | done text => exact .done _
  | skip blank _ ih => exact .skip blank ih

variable {front : List Char}

theorem spaces_of_suffix (each : ∀ c ∈ front, space c) : Spaces space (front ++ rest) rest := by
  induction front with
  | nil => exact .done _
  | cons c front ih =>
      exact .skip (each c mem_cons_self) (ih fun c' member => each c' (mem_cons_of_mem _ member))

/-- Nothing but the end of both texts is dropped. -/
theorem Spaces.dropped {more : List Char} (spaces : Spaces space (text ++ more) (rest ++ more)) :
    Spaces space text rest := by
  obtain ⟨front, parts, each⟩ := spaces.suffix
  rw [← append_assoc, append_cancel_right_eq] at parts
  rw [parts]
  exact spaces_of_suffix each

/-- Nothing is dropped in front of another character. -/
theorem Spaces.solid {c : Char} {tail : List Char} (spaces : Spaces space (c :: tail) rest) (solid : ¬space c) :
    rest = c :: tail := by
  cases spaces with
  | done => rfl
  | skip blank _ => exact absurd blank solid

theorem hexValue_quote : hexValue '"' = none := by decide

/-- The digits of a code unit are no quotes. -/
theorem codeUnit_quote {a b c d : Char} {code : Nat} (known : codeUnit a b c d = some code) : '"' ∉ [a, b, c, d] := by
  intro member
  simp only [codeUnit, Option.bind_eq_bind, Option.bind_eq_some_iff] at known
  obtain ⟨first, hexA, second, hexB, third, hexC, fourth, hexD, _⟩ := known
  simp only [mem_cons, not_mem_nil, or_false] at member
  rcases member with rfl | rfl | rfl | rfl
  · rw [hexValue_quote] at hexA
    cases hexA
  · rw [hexValue_quote] at hexB
    cases hexB
  · rw [hexValue_quote] at hexC
    cases hexC
  · rw [hexValue_quote] at hexD
    cases hexD

/-- A part without the character lies in front of the first place of the character. -/
theorem append_apart {c : Char} {part after back : List Char} (apart : c ∉ part)
    (same : part ++ after = front ++ c :: back) : ∃ middle, front = part ++ middle ∧ after = middle ++ c :: back := by
  rcases append_eq_append_iff.mp same with ⟨middle, rfl, rfl⟩ | ⟨middle, rfl, tail⟩
  · exact ⟨middle, rfl, rfl⟩
  · cases middle with
    | nil => exact ⟨[], by rw [append_nil, append_nil], tail.symm⟩
    | cons c' middle =>
        obtain ⟨rfl, _⟩ := List.cons.inj tail
        exact absurd (mem_append_right _ mem_cons_self) apart

/-- A quote inside a literal stands behind a backslash. -/
theorem JsonString.quote {body value front back : List Char} (known : JsonString body value)
    (inside : body = front ++ '"' :: back) : ∃ front', front = front' ++ ['\\'] := by
  induction known generalizing front with
  | nil => exact absurd inside.symm (append_ne_nil_of_right_ne_nil _ (cons_ne_nil _ _))
  | plain _ quote _ _ ih =>
      obtain ⟨middle, rfl, same⟩ := append_apart (mem_singleton.not.mpr (Ne.symm quote)) inside
      obtain ⟨front', rfl⟩ := ih same
      exact ⟨_, (append_assoc _ _ _).symm⟩
  | @escape mark _ _ _ _ _ ih =>
      by_cases quoted : mark = '"'
      · subst quoted
        rcases front with _ | ⟨c, _ | ⟨c', front⟩⟩
        · cases inside
        · obtain ⟨rfl, _⟩ := List.cons.inj inside
          exact ⟨[], rfl⟩
        · simp only [cons_append, List.cons.injEq] at inside
          obtain ⟨rfl, rfl, tail⟩ := inside
          obtain ⟨front', rfl⟩ := ih tail
          exact ⟨_ :: _ :: front', rfl⟩
      · have apart : '"' ∉ ['\\', mark] := by
          simp only [mem_cons, not_mem_nil, or_false, not_or]
          exact ⟨by decide, Ne.symm quoted⟩
        obtain ⟨middle, rfl, same⟩ := append_apart apart inside
        obtain ⟨front', rfl⟩ := ih same
        exact ⟨_, (append_assoc _ _ _).symm⟩
  | @unicode a b c d _ _ _ code _ _ ih =>
      have apart : '"' ∉ ['\\', 'u', a, b, c, d] := by
        have digits := codeUnit_quote code
        rw [mem_cons, mem_cons, not_or, not_or]
        exact ⟨by decide, by decide, digits⟩
      obtain ⟨middle, rfl, same⟩ := append_apart apart inside
      obtain ⟨front', rfl⟩ := ih same
      exact ⟨_, (append_assoc _ _ _).symm⟩
  | @pair a b c d a' b' c' d' _ _ _ _ high _ low _ _ ih =>
      have apart : '"' ∉ ['\\', 'u', a, b, c, d, '\\', 'u', a', b', c', d'] := by
        have digits := codeUnit_quote high
        have digits' := codeUnit_quote low
        simp only [mem_cons, not_mem_nil, or_false, not_or] at digits digits' ⊢
        exact ⟨by decide, by decide, digits.1, digits.2.1, digits.2.2.1, digits.2.2.2, by decide, by decide, digits'⟩
      obtain ⟨middle, rfl, same⟩ := append_apart apart inside
      obtain ⟨front', rfl⟩ := ih same
      exact ⟨_, (append_assoc _ _ _).symm⟩

/-- A text can stand in a literal without an escape. -/
def PlainText (text : List Char) : Prop := ∀ c ∈ text, ' ' ≤ c ∧ c ≠ '"' ∧ c ≠ '\\'

instance (text : List Char) : Decidable (PlainText text) :=
  List.decidableBAll (fun c => ' ' ≤ c ∧ c ≠ '"' ∧ c ≠ '\\') text

theorem PlainText.denotes (plain : PlainText text) : JsonString text text := by
  induction text with
  | nil => exact .nil
  | cons c text ih =>
      obtain ⟨low, quote, slash⟩ := plain c mem_cons_self
      exact .plain low quote slash (ih fun c' member => plain c' (mem_cons_of_mem _ member))

/-- A literal that is as short as its text has no escape. -/
theorem JsonString.plainText {body value : List Char} (known : JsonString body value)
    (short : body.length ≤ value.length) : body = value ∧ PlainText value := by
  induction known with
  | nil => exact ⟨rfl, fun c member => absurd member not_mem_nil⟩
  | plain low quote slash _ ih =>
      obtain ⟨rfl, each⟩ := ih (Nat.le_of_succ_le_succ short)
      refine ⟨rfl, fun c member => ?_⟩
      rcases mem_cons.mp member with rfl | later
      · exact ⟨low, quote, slash⟩
      · exact each c later
  | escape _ later _ =>
      have bound := later.length_le
      simp only [length_cons] at short
      omega
  | unicode _ _ later _ =>
      have bound := later.length_le
      simp only [length_cons] at short
      omega
  | pair _ _ _ _ later _ =>
      have bound := later.length_le
      simp only [length_cons] at short
      omega

end Texts

section Reads

variable {Number : Type} {number : List Char → Number → Prop} {depth : Nat} {part : JsonPart}
  {text rest more : List Char} {members : List (List Char × Json Number)}

/-- A part takes the front of the text. -/
theorem JsonReads.suffix (reads : JsonReads number depth part text rest members) : ∃ front, text = front ++ rest := by
  induction reads with
  | constant _ _ _ => exact ⟨_, rfl⟩
  | number _ _ _ => exact ⟨_, rfl⟩
  | @string body _ _ rest _ => exact ⟨'"' :: (body ++ ['"']), by simp⟩
  | array _ ih =>
      obtain ⟨front, rfl⟩ := ih
      exact ⟨'[' :: (front ++ [']']), by simp⟩
  | object _ ih =>
      obtain ⟨front, rfl⟩ := ih
      exact ⟨'{' :: (front ++ ['}']), by simp⟩
  | element before _ after ih =>
      obtain ⟨first, rfl, _⟩ := before.suffix
      obtain ⟨last, rfl, _⟩ := after.suffix
      obtain ⟨front, rfl⟩ := ih
      exact ⟨first ++ (front ++ last), by simp⟩
  | @pair _ _ body _ _ _ _ _ _ before _ colon _ ih =>
      obtain ⟨first, rfl, _⟩ := before.suffix
      obtain ⟨last, rfl, _⟩ := colon.suffix
      obtain ⟨front, rfl⟩ := ih
      exact ⟨first ++ '"' :: (body ++ '"' :: (last ++ ':' :: front)), by simp⟩
  | none spaces =>
      obtain ⟨front, same, _⟩ := spaces.suffix
      exact ⟨front, same⟩
  | last _ _ ih => exact ih
  | more _ _ _ ih ih' =>
      obtain ⟨first, rfl⟩ := ih
      obtain ⟨later, rfl⟩ := ih'
      exact ⟨first ++ ',' :: later, by simp⟩

/-- What follows a part does not matter to it. -/
theorem JsonReads.append (reads : JsonReads number depth part text rest members) (more : List Char) :
    JsonReads number depth part (text ++ more) (rest ++ more) members := by
  induction reads with
  | constant depth rest member =>
      rw [append_assoc]
      exact .constant depth (rest ++ more) member
  | number depth rest token =>
      rw [append_assoc]
      exact .number depth (rest ++ more) token
  | string depth rest body =>
      rw [cons_append, append_assoc, cons_append]
      exact .string depth (rest ++ more) body
  | array _ ih => exact .array ih
  | object _ ih => exact .object ih
  | element before _ after ih => exact .element (before.append more) ih (after.append more)
  | pair before key colon _ ih =>
      have opened := before.append more
      rw [cons_append, append_assoc, cons_append] at opened
      exact .pair opened key (colon.append more) ih
  | none spaces => exact .none (spaces.append more)
  | last fresh _ ih => exact .last fresh ih
  | more fresh _ _ ih ih' => exact .more fresh ih ih'

/-- What follows a part can be dropped. -/
theorem JsonReads.dropped (reads : JsonReads number depth part (text ++ more) (rest ++ more) members) :
    JsonReads number depth part text rest members := by
  generalize whole : text ++ more = text' at reads
  generalize whole' : rest ++ more = rest' at reads
  induction reads generalizing text rest with
  | constant depth _ member =>
      subst whole'
      rw [← append_assoc, append_cancel_right_eq] at whole
      rw [whole]
      exact .constant depth rest member
  | number depth _ token =>
      subst whole'
      rw [← append_assoc, append_cancel_right_eq] at whole
      rw [whole]
      exact .number depth rest token
  | string depth _ body =>
      subst whole'
      rw [show ∀ body : List Char, '"' :: (body ++ '"' :: (rest ++ more)) = ('"' :: (body ++ '"' :: rest)) ++ more
        from fun body => by simp, append_cancel_right_eq] at whole
      rw [whole]
      exact .string depth rest body
  | @array _ _ _ _ inner ih =>
      subst whole'
      obtain ⟨front, rfl⟩ := inner.suffix
      rw [← cons_append, ← cons_append, ← append_assoc, append_cancel_right_eq] at whole
      subst whole
      exact .array (ih (by simp) rfl)
  | @object _ _ _ _ inner ih =>
      subst whole'
      obtain ⟨front, rfl⟩ := inner.suffix
      rw [← cons_append, ← cons_append, ← append_assoc, append_cancel_right_eq] at whole
      subst whole
      exact .object (ih (by simp) rfl)
  | element before value after ih =>
      subst whole'
      obtain ⟨last, rfl, _⟩ := after.suffix
      obtain ⟨front, rfl⟩ := value.suffix
      have same := append_assoc front (last ++ rest) more
      rw [append_assoc last] at same
      rw [← same, ← whole] at before
      refine .element before.dropped (ih same ?_) (@Spaces.dropped _ (last ++ rest) rest more ?_)
      · rw [append_assoc]
      · rwa [append_assoc]
  | pair before key colon value ih =>
      subst whole'
      subst whole
      obtain ⟨front, rfl⟩ := value.suffix
      obtain ⟨last, rfl, _⟩ := colon.suffix
      have opened := before
      rw [show ∀ body : List Char, '"' :: (body ++ '"' :: (last ++ ':' :: (front ++ (rest ++ more)))) =
        ('"' :: (body ++ '"' :: (last ++ ':' :: (front ++ rest)))) ++ more from fun body => by simp] at opened
      refine .pair opened.dropped key (@Spaces.dropped _ (last ++ ':' :: (front ++ rest)) (':' :: (front ++ rest)) more
        ?_) (ih (by rw [append_assoc]) rfl)
      rw [append_assoc, cons_append, append_assoc]
      exact colon
  | none spaces =>
      subst whole'
      subst whole
      exact .none spaces.dropped
  | last fresh _ ih => exact .last fresh (ih whole whole')
  | more fresh _ later ih ih' =>
      subst whole'
      obtain ⟨front, rfl⟩ := later.suffix
      exact .more fresh (ih whole (by simp)) (ih' (append_assoc _ _ _) rfl)

/-- A larger bound on the depth changes nothing. -/
theorem JsonReads.deeper (reads : JsonReads number depth part text rest members) (extra : Nat) :
    JsonReads number (depth + extra) part text rest members := by
  induction reads with
  | constant _ rest member => exact .constant _ rest member
  | number _ rest token => exact .number _ rest token
  | string _ rest body => exact .string _ rest body
  | array _ ih =>
      rw [Nat.add_right_comm]
      exact .array ih
  | object _ ih =>
      rw [Nat.add_right_comm]
      exact .object ih
  | element before _ after ih => exact .element before ih after
  | pair before key colon _ ih => exact .pair before key colon ih
  | none spaces => exact .none spaces
  | last fresh _ ih => exact .last fresh ih
  | more fresh _ _ ih ih' => exact .more fresh ih ih'

theorem JsonReads.length_le (reads : JsonReads number depth part text rest members) : rest.length ≤ text.length := by
  obtain ⟨front, rfl⟩ := reads.suffix
  rw [length_append]
  omega

variable {key value : List Char}

theorem mem_single {key' : List Char} {value value' : Json Number} (member : (key, value) ∈ [(key', value')]) :
    value = value' := (Prod.mk.inj (mem_singleton.mp member)).2

/-- A text among the members lies with its quotes inside what is read. -/
theorem JsonReads.string_fits (reads : JsonReads number depth part text rest members)
    (member : (key, .string value) ∈ members) : value.length + 2 + rest.length ≤ text.length := by
  induction reads generalizing key with
  | constant _ _ known =>
      rw [← mem_single member] at known
      simp [jsonConstants] at known
  | number _ _ _ => cases mem_single member
  | string _ _ body =>
      cases mem_single member
      have bound := body.length_le
      simp only [length_cons, length_append]
      omega
  | array _ _ => cases mem_single member
  | object _ _ => cases mem_single member
  | element before _ after ih =>
      have bound := ih member
      obtain ⟨first, rfl, _⟩ := before.suffix
      obtain ⟨last, rfl, _⟩ := after.suffix
      simp only [length_append] at bound ⊢
      omega
  | pair before _ colon _ ih =>
      cases mem_single member
      have bound := ih mem_cons_self
      obtain ⟨first, rfl, _⟩ := before.suffix
      obtain ⟨last, rfl, _⟩ := colon.suffix
      simp only [length_cons, length_append]
      omega
  | none _ => cases member
  | last _ _ ih => exact ih member
  | more _ entry later ih ih' =>
      rcases mem_append.mp member with first | second
      · have bound := ih first
        have shorter := later.length_le
        simp only [length_cons] at bound
        omega
      · have bound := ih' second
        have shorter := entry.length_le
        simp only [length_cons] at shorter
        omega

/-- A text in an object is shorter than the object. -/
theorem JsonReads.object_fits {map : JsonMap Number}
    (reads : JsonReads number depth (.entry false) text rest [([], .object map)])
    (found : map.lookup key = some (.string value)) : value.length + 4 ≤ text.length := by
  cases reads with
  | element before inner after =>
      obtain ⟨front, rfl, _⟩ := before.suffix
      rcases inner.value_cases with ⟨_, _, known, _, same⟩ | ⟨_, _, _, _, same⟩ | ⟨_, _, _, _, same⟩ |
        ⟨_, _, _, _, _, _, same⟩ | ⟨text, items, _, series, _, rfl, same⟩
      · cases same
        simp [jsonConstants] at known
      · cases same
      · cases same
      · cases same
      · cases same
        have bound := series.string_fits (JsonMap.mem_of_lookup found)
        simp only [length_append, length_cons] at bound ⊢
        omega

end Reads

end Pictor

namespace Pictor
open List

namespace Json

variable {Number : Type}

mutual

/-- A reader sorts the members of an object. -/
def settled : Json Number → Json Number
  | .null => .null
  | .bool value => .bool value
  | .number value => .number value
  | .string text => .string text
  | .array items => .array (settledItems items)
  | .object members => .object (JsonMap.ofMembers (settledMembers members))

def settledItems : List (Json Number) → List (Json Number)
  | [] => []
  | item :: items => settled item :: settledItems items

def settledMembers : List (List Char × Json Number) → List (List Char × Json Number)
  | [] => []
  | (key, value) :: members => (key, settled value) :: settledMembers members

end

/-- A step from a value to a part of it. -/
inductive Step where
  | key (name : List Char)
  | index (place : Nat)

def follow : List Step → Json Number → Option (Json Number)
  | [], value => some value
  | .key name :: path, .object members => (members.lookup name).bind (follow path)
  | .index place :: path, .array items => items[place]?.bind (follow path)
  | _ :: _, _ => none

section Writer

variable (numberText : Number → List Char)

def quoted (text : List Char) : List Char := '"' :: (escapeText text ++ ['"'])

mutual

/-- The text of a value without spaces. -/
def compact : Json Number → List Char
  | .null => ['n', 'u', 'l', 'l']
  | .bool true => ['t', 'r', 'u', 'e']
  | .bool false => ['f', 'a', 'l', 's', 'e']
  | .number value => numberText value
  | .string text => quoted text
  | .array items => '[' :: compactItems items
  | .object members => '{' :: compactMembers members

def compactItems : List (Json Number) → List Char
  | [] => [']']
  | [item] => compact item ++ [']']
  | item :: next :: items => compact item ++ ',' :: compactItems (next :: items)

def compactMembers : List (List Char × Json Number) → List Char
  | [] => ['}']
  | [(key, value)] => quoted key ++ ':' :: (compact value ++ ['}'])
  | (key, value) :: next :: members => quoted key ++ ':' :: (compact value ++ ',' :: compactMembers (next :: members))

end

end Writer

end Json

/-- A text denotes a value. -/
def JsonDenotes {Number : Type} (number : List Char → Number → Prop) (text : List Char) (value : Json Number) : Prop :=
  ∃ depth, JsonReads number depth (.entry false) text [] [([], value)]

section Reads

variable {Number : Type} {number : List Char → Number → Prop} {numberText : Number → List Char} {c : Char}
  {text : List Char}

theorem escapeChar_visible {c' : Char} (member : c' ∈ escapeChar c) : ' ' ≤ c' := by
  have marks : ∀ pair ∈ shortEscapes, ' ' ≤ pair.2 := by decide
  have digits : ∀ value < 16, ' ' ≤ hexChar value := by decide
  rw [escapeChar] at member
  cases found : shortEscapes.lookup c with
  | some mark =>
      simp only [found, mem_cons, not_mem_nil, or_false] at member
      obtain ⟨first, second, parts, _⟩ := lookup_eq_some_iff.mp found
      rcases member with rfl | rfl
      · decide
      · exact marks (c, c') (by rw [parts]; exact mem_append_right _ mem_cons_self)
  | none =>
      by_cases control : c < ' '
      · have small : c.toNat < 32 := control
        simp only [found, if_pos control, mem_cons, not_mem_nil, or_false] at member
        rcases member with rfl | rfl | rfl | rfl | rfl | rfl
        · decide
        · decide
        · decide
        · decide
        · exact digits _ (by omega)
        · exact digits _ (by omega)
      · simp only [found, if_neg control, mem_singleton] at member
        rw [member]
        exact Char.not_lt.mp control

theorem quoted_visible (member : c ∈ Json.quoted text) : ' ' ≤ c := by
  rw [Json.quoted, mem_cons, mem_append, mem_singleton] at member
  rcases member with rfl | inside | rfl
  · decide
  · obtain ⟨c', _, written⟩ := mem_flatMap.mp inside
    exact escapeChar_visible written
  · decide

/-- No character of a text is a control character. -/
def Visible (text : List Char) : Prop := ∀ c ∈ text, ' ' ≤ c

instance (text : List Char) : Decidable (Visible text) := List.decidableBAll (' ' ≤ ·) text

theorem inNumber_visible (inside : inNumber c) : ' ' ≤ c := by
  rcases inside with digit | member
  · exact Char.le_trans (show ' ' ≤ '0' by decide) digit.1
  · have each : Visible ['-', '+', '.', 'e', 'E'] := by decide
    exact each c member

theorem Visible.append {text' : List Char} (first : Visible text) (second : Visible text') :
    Visible (text ++ text') := fun c member => (mem_append.mp member).elim (first c) (second c)

theorem Visible.cons {c : Char} {text : List Char} (first : ' ' ≤ c) (second : Visible text) : Visible (c :: text) :=
  forall_mem_cons.mpr ⟨first, second⟩

theorem Visible.nil : Visible [] := fun _ member => absurd member not_mem_nil

mutual

theorem compact_visible (visible : ∀ value, Visible (numberText value)) :
    ∀ value : Json Number, Visible (value.compact numberText)
  | .null => show Visible ['n', 'u', 'l', 'l'] by decide
  | .bool true => show Visible ['t', 'r', 'u', 'e'] by decide
  | .bool false => show Visible ['f', 'a', 'l', 's', 'e'] by decide
  | .number value => by
      rw [Json.compact]
      exact visible value
  | .string text => by
      rw [Json.compact]
      exact fun c member => quoted_visible member
  | .array items => by
      rw [Json.compact]
      exact .cons (by decide) (compactItems_visible visible items)
  | .object members => by
      rw [Json.compact]
      exact .cons (by decide) (compactMembers_visible visible members)

theorem compactItems_visible (visible : ∀ value, Visible (numberText value)) :
    ∀ items : List (Json Number), Visible (Json.compactItems numberText items)
  | [] => .cons (by decide) .nil
  | [item] => by
      rw [Json.compactItems]
      exact .append (compact_visible visible item) (.cons (by decide) .nil)
  | item :: next :: items => by
      rw [Json.compactItems]
      exact .append (compact_visible visible item) (.cons (by decide) (compactItems_visible visible (next :: items)))

theorem compactMembers_visible (visible : ∀ value, Visible (numberText value)) :
    ∀ members : List (List Char × Json Number), Visible (Json.compactMembers numberText members)
  | [] => .cons (by decide) .nil
  | [(key, value)] => by
      rw [Json.compactMembers]
      exact .append (fun c member => quoted_visible member)
        (.cons (by decide) (.append (compact_visible visible value) (.cons (by decide) .nil)))
  | (key, value) :: next :: members => by
      rw [Json.compactMembers]
      exact .append (fun c member => quoted_visible member) (.cons (by decide)
        (.append (compact_visible visible value) (.cons (by decide) (compactMembers_visible visible (next :: members)))))

end

/-- A part is read at every depth from some depth on, whatever follows it. -/
def AlwaysReads (number : List Char → Number → Prop) (part : JsonPart) (text close : List Char)
    (members : List (List Char × Json Number)) : Prop :=
  ∃ bound, ∀ depth, bound ≤ depth → ∀ rest, JsonReads number depth part (text ++ rest) (close ++ rest) members

section Parts

variable {text close key : List Char} {value : Json Number} {fresh keyed : Bool}
  {members later : List (List Char × Json Number)}

theorem AlwaysReads.last (reads : AlwaysReads number (.entry keyed) text [] members) :
    AlwaysReads number (.series keyed fresh) (text ++ close) close members := by
  obtain ⟨bound, reads⟩ := reads
  refine ⟨bound, fun depth deep rest => ?_⟩
  rw [append_assoc]
  exact .last fresh (reads depth deep _)

theorem AlwaysReads.more (reads : AlwaysReads number (.entry keyed) text [] members) {text' : List Char}
    (reads' : AlwaysReads number (.series keyed false) text' close later) :
    AlwaysReads number (.series keyed fresh) (text ++ ',' :: text') close (members ++ later) := by
  obtain ⟨bound, reads⟩ := reads
  obtain ⟨bound', reads'⟩ := reads'
  refine ⟨max bound bound', fun depth deep rest => ?_⟩
  rw [append_assoc]
  exact .more fresh (reads depth (le_trans (le_max_left _ _) deep) _)
    (reads' depth (le_trans (le_max_right _ _) deep) rest)

theorem AlwaysReads.element (reads : AlwaysReads number .value text [] members) :
    AlwaysReads number (.entry false) text [] members := by
  obtain ⟨bound, reads⟩ := reads
  exact ⟨bound, fun depth deep rest => .element (.done _) (reads depth deep rest) (.done _)⟩

theorem AlwaysReads.member {body : List Char} (reads : AlwaysReads number .value text [] [([], value)])
    (known : JsonString body key) :
    AlwaysReads number (.entry true) ('"' :: (body ++ '"' :: ':' :: text)) [] [(key, value)] := by
  obtain ⟨bound, reads⟩ := reads
  refine ⟨bound, fun depth deep rest => ?_⟩
  rw [cons_append, append_assoc, cons_append, cons_append]
  exact .pair (.done _) known (.done _) (.element (.done _) (reads depth deep rest) (.done _))

theorem AlwaysReads.pair (reads : AlwaysReads number .value text [] [([], value)]) (key : List Char) :
    AlwaysReads number (.entry true) (Json.quoted key ++ ':' :: text) [] [(key, value)] := by
  rw [Json.quoted, cons_append, append_assoc]
  exact reads.member (escapeText_denotes key)

end Parts

mutual

/-- A reader finds the settled value in the written one. -/
theorem compact_reads (reads : ∀ value, number (numberText value) value) : ∀ value : Json Number,
    AlwaysReads number .value (value.compact numberText) [] [([], value.settled)]
  | .null => ⟨0, fun depth _ rest => .constant depth rest (by simp [jsonConstants, Json.settled, Json.compact])⟩
  | .bool true => ⟨0, fun depth _ rest => .constant depth rest (by simp [jsonConstants, Json.settled, Json.compact])⟩
  | .bool false => ⟨0, fun depth _ rest => .constant depth rest (by simp [jsonConstants, Json.settled, Json.compact])⟩
  | .number value => by
      rw [Json.compact, Json.settled]
      exact ⟨0, fun depth _ rest => .number depth rest (reads value)⟩
  | .string text => by
      rw [Json.compact, Json.settled, Json.quoted]
      refine ⟨0, fun depth _ rest => ?_⟩
      rw [cons_append, append_assoc]
      exact .string depth rest (escapeText_denotes text)
  | .array items => by
      obtain ⟨bound, inner⟩ := compactItems_read reads items true fun _ => rfl
      rw [Json.compact, Json.settled]
      refine ⟨bound + 1, fun depth deep rest => ?_⟩
      obtain ⟨depth, rfl⟩ := Nat.exists_eq_add_of_le' (Nat.le_of_add_left_le deep)
      have known := JsonReads.array (inner depth (Nat.le_of_add_le_add_right deep) rest)
      rw [map_map, show (Prod.snd ∘ fun item : Json Number => (([] : List Char), item)) = id from rfl,
        map_id] at known
      exact known
  | .object members => by
      obtain ⟨bound, inner⟩ := compactMembers_read reads members true fun _ => rfl
      rw [Json.compact, Json.settled]
      refine ⟨bound + 1, fun depth deep rest => ?_⟩
      obtain ⟨depth, rfl⟩ := Nat.exists_eq_add_of_le' (Nat.le_of_add_left_le deep)
      exact .object (inner depth (Nat.le_of_add_le_add_right deep) rest)

theorem compactItems_read (reads : ∀ value, number (numberText value) value) : ∀ (items : List (Json Number))
    (fresh : Bool), (items = [] → fresh = true) → AlwaysReads number (.series false fresh)
      (Json.compactItems numberText items) [']'] ((Json.settledItems items).map fun item => ([], item))
  | [], fresh, first => by
      rw [first rfl]
      exact ⟨0, fun depth _ rest => .none (.done _)⟩
  | [item], fresh, _ => by
      rw [Json.compactItems]
      exact (compact_reads reads item).element.last
  | item :: next :: items, fresh, _ => by
      rw [Json.compactItems]
      exact (compact_reads reads item).element.more
        (compactItems_read reads (next :: items) false fun empty => absurd empty (cons_ne_nil _ _))

theorem compactMembers_read (reads : ∀ value, number (numberText value) value) :
    ∀ (members : List (List Char × Json Number)) (fresh : Bool), (members = [] → fresh = true) →
      AlwaysReads number (.series true fresh) (Json.compactMembers numberText members) ['}']
        (Json.settledMembers members)
  | [], fresh, first => by
      rw [first rfl]
      exact ⟨0, fun depth _ rest => .none (.done _)⟩
  | [(key, value)], fresh, _ => by
      rw [Json.compactMembers, ← cons_append, ← append_assoc]
      exact ((compact_reads reads value).pair key).last
  | (key, value) :: next :: members, fresh, _ => by
      rw [Json.compactMembers, ← cons_append, ← append_assoc]
      exact ((compact_reads reads value).pair key).more
        (compactMembers_read reads (next :: members) false fun empty => absurd empty (cons_ne_nil _ _))

end

/-- A member is read at the place where its value stands. -/
theorem member_opened (numbers : NumberTokens number) {depth : Nat} {key tail rest : List Char}
    {members : List (List Char × Json Number)} (plain : PlainText key)
    (reads : JsonReads number depth .value ('{' :: '"' :: (key ++ '"' :: ':' :: tail)) rest members)
    (solid : ∀ c, tail.head? = some c → ¬isJsonSpace c) :
    ∃ depth' rest' value, JsonReads number depth' .value tail rest' value := by
  have entry {depth : Nat} {rest : List Char} {members : List (List Char × Json Number)}
      (reads : JsonReads number depth (.entry true) ('"' :: (key ++ '"' :: ':' :: tail)) rest members) :
      ∃ depth' rest' value, JsonReads number depth' .value tail rest' value := by
    cases reads with
    | pair before known colon value =>
        obtain ⟨_, same⟩ := List.cons.inj (before.solid (by decide))
        obtain ⟨_, _, rfl⟩ := known.unique plain.denotes same
        obtain ⟨_, rfl⟩ := List.cons.inj (colon.solid (by decide))
        cases value with
        | element spaces inner _ =>
            cases spaces with
            | done => exact ⟨_, _, _, inner⟩
            | skip blank _ => exact absurd blank (solid _ rfl)
  obtain ⟨items, depth', series, _⟩ := reads.of_brace numbers
  cases series with
  | none spaces => cases spaces.solid (by decide)
  | last _ reads => exact entry reads
  | more _ reads _ => exact entry reads

theorem compact_denotes (reads : ∀ value, number (numberText value) value) (value : Json Number) :
    JsonDenotes number (value.compact numberText) value.settled := by
  obtain ⟨bound, known⟩ := (compact_reads reads value).element
  have whole := known bound (Nat.le_refl _) []
  rw [append_nil] at whole
  exact ⟨bound, whole⟩

end Reads

section Naturals

theorem toDigits_head {value : Nat} (positive : 0 < value) : (Nat.toDigits 10 value).head? ≠ some '0' := by
  induction value using Nat.strongRecOn with
  | ind value ih =>
      by_cases small : value < 10
      · rw [Nat.toDigits_of_lt_base small]
        have digits : ∀ value < 10, 0 < value → [value.digitChar].head? ≠ some '0' := by decide
        exact digits value small positive
      · rw [Nat.toDigits_of_base_le (by decide) (Nat.le_of_not_lt small),
          head?_append_of_ne_nil _ Nat.toDigits_ne_nil]
        exact ih (value / 10) (by omega) (by omega)

theorem isDigit_of_char {c : Char} (digit : c.isDigit = true) : isDigit c := by
  rw [Char.isDigit, Bool.and_eq_true, decide_eq_true_eq, decide_eq_true_eq] at digit
  exact digit

/-- A natural number is written as its digits. -/
theorem jsonNumber_toDigits (value : Nat) : JsonNumber (Nat.toDigits 10 value) := by
  refine ⟨[], Nat.toDigits 10 value, [], [], by simp, Or.inl rfl, ?_, Or.inl rfl, Or.inl rfl⟩
  rcases Nat.eq_zero_or_pos value with rfl | positive
  · exact Or.inl (Nat.toDigits_zero 10)
  · exact Or.inr ⟨⟨Nat.toDigits_ne_nil, fun c member =>
      isDigit_of_char (Nat.isDigit_of_mem_toDigits (by decide) (by decide) member)⟩, toDigits_head positive⟩

/-- A reader that knows the natural numbers. -/
def readsNat (token : List Char) (value : Nat) : Prop := token = Nat.toDigits 10 value

theorem readsNat_tokens : NumberTokens readsNat where
  token token value known := by
    rw [known]
    exact jsonNumber_toDigits value
  unique token value value' known known' := by
    have same := congrArg (Nat.ofDigitChars 10 · 0) (known.symm.trans known')
    simpa only [Nat.ofDigitChars_ten_toDigits] using same

theorem toDigits_visible (value : Nat) : Visible (Nat.toDigits 10 value) := fun _ member =>
  inNumber_visible ((jsonNumber_toDigits value).inNumber _ member)

end Naturals

end Pictor
