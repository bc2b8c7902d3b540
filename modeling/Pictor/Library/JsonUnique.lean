import Pictor.Library.JsonValue

namespace Pictor
open List

/-- A character can stand in a number. -/
def inNumber (c : Char) : Prop := isDigit c ∨ c ∈ ['-', '+', '.', 'e', 'E']

instance (c : Char) : Decidable (inNumber c) := inferInstanceAs (Decidable (_ ∨ _))

instance (c : Char) : Decidable (isJsonSpace c) := inferInstanceAs (Decidable (_ ∨ _))

/-- The reader of numbers takes tokens of the grammar and gives one number for each token. -/
structure NumberTokens {Number : Type} (number : List Char → Number → Prop) : Prop where
  token : ∀ token value, number token value → JsonNumber token
  unique : ∀ token value value', number token value → number token value' → value = value'

section Tokens

variable {token rest body text : List Char} {c : Char}

theorem JsonNumber.inNumber (known : JsonNumber token) : ∀ c ∈ token, inNumber c := by
  obtain ⟨sign, integer, fraction, exponent, rfl, minus, whole, part, power⟩ := known
  have digits {text : List Char} (run : Digits text) : ∀ c ∈ text, Pictor.inNumber c := fun c member =>
    Or.inl (run.2 c member)
  intro c member
  rw [mem_append, mem_append, mem_append] at member
  rcases member with member | member | member | member
  · rcases minus with rfl | rfl
    · cases member
    · rw [mem_singleton.mp member]
      decide
  · rcases whole with rfl | whole
    · rw [mem_singleton.mp member]
      decide
    · exact digits whole.1 c member
  · rcases part with rfl | ⟨run, rfl, run'⟩
    · cases member
    · rcases mem_cons.mp member with rfl | member
      · decide
      · exact digits run' c member
  · rcases power with rfl | ⟨mark, sign, run, rfl, marks, signs, run'⟩
    · cases member
    · rcases mem_cons.mp member with rfl | member
      · rcases marks with rfl | rfl <;> decide
      · rcases mem_append.mp member with member | member
        · rcases signs with rfl | rfl | rfl
          · cases member
          · rw [mem_singleton.mp member]
            decide
          · rw [mem_singleton.mp member]
            decide
        · exact digits run' c member

/-- A number starts with a digit or a minus. -/
theorem JsonNumber.head (known : JsonNumber token) : ∃ c rest, token = c :: rest ∧ (isDigit c ∨ c = '-') := by
  obtain ⟨sign, integer, fraction, exponent, rfl, minus, whole, _⟩ := known
  rcases minus with rfl | rfl
  · rcases whole with rfl | ⟨⟨some, run⟩, _⟩
    · exact ⟨'0', _, rfl, Or.inl (by decide)⟩
    · obtain ⟨c, rest, rfl⟩ := exists_cons_of_ne_nil some
      exact ⟨c, _, rfl, Or.inl (run c mem_cons_self)⟩
  · exact ⟨'-', _, rfl, Or.inr rfl⟩

/-- A run of number characters ends in one place. -/
theorem span_unique {first second rest' : List Char} (inside : ∀ c ∈ first, inNumber c)
    (inside' : ∀ c ∈ second, inNumber c) (ends : ∀ c, rest.head? = some c → ¬inNumber c)
    (ends' : ∀ c, rest'.head? = some c → ¬inNumber c) (same : first ++ rest = second ++ rest') :
    first = second ∧ rest = rest' := by
  induction first generalizing second with
  | nil =>
      cases second with
      | nil => exact ⟨rfl, same⟩
      | cons c second =>
          rw [nil_append] at same
          subst same
          exact absurd (inside' c mem_cons_self) (ends c rfl)
  | cons c first ih =>
      cases second with
      | nil =>
          rw [nil_append] at same
          subst same
          exact absurd (inside c mem_cons_self) (ends' c rfl)
      | cons c' second =>
          rw [cons_append, cons_append, List.cons.injEq] at same
          obtain ⟨rfl, rfl⟩ := ih (fun c member => inside c (mem_cons_of_mem _ member))
            (fun c member => inside' c (mem_cons_of_mem _ member)) same.2
          exact ⟨by rw [same.1], rfl⟩

theorem escape_ne_unicode : ('u', c) ∉ jsonEscapes := by
  intro member
  simp [jsonEscapes] at member

theorem escape_unique {mark c' : Char} (first : (mark, c) ∈ jsonEscapes) (second : (mark, c') ∈ jsonEscapes) :
    c = c' := by
  simp only [jsonEscapes, mem_cons, Prod.mk.injEq, not_mem_nil, or_false] at first second
  rcases first with ⟨rfl, rfl⟩ | ⟨rfl, rfl⟩ | ⟨rfl, rfl⟩ | ⟨rfl, rfl⟩ | ⟨rfl, rfl⟩ | ⟨rfl, rfl⟩ | ⟨rfl, rfl⟩ |
    ⟨rfl, rfl⟩ <;> simpa [eq_comm] using second

/-- A string literal ends at one quote and denotes one text. -/
theorem JsonString.unique {body' text' rest' : List Char} (known : JsonString body text)
    (known' : JsonString body' text') (same : body ++ '"' :: rest = body' ++ '"' :: rest') :
    body = body' ∧ text = text' ∧ rest = rest' := by
  induction known generalizing body' text' with
  | nil =>
      cases known' with
      | nil => exact ⟨rfl, rfl, (List.cons.inj same).2⟩
      | plain _ quote _ _ => exact absurd (List.cons.inj same).1.symm quote
      | escape _ _ => cases same
      | unicode _ _ _ => cases same
      | pair _ _ _ _ _ => cases same
  | plain low quote slash _ ih =>
      cases known' with
      | nil => exact absurd (List.cons.inj same).1 quote
      | plain _ _ _ later =>
          obtain ⟨rfl, tail⟩ := List.cons.inj same
          obtain ⟨rfl, rfl, rfl⟩ := ih later tail
          exact ⟨rfl, rfl, rfl⟩
      | escape _ _ => exact absurd (List.cons.inj same).1 slash
      | unicode _ _ _ => exact absurd (List.cons.inj same).1 slash
      | pair _ _ _ _ _ => exact absurd (List.cons.inj same).1 slash
  | escape mark _ ih =>
      cases known' with
      | nil => cases same
      | plain _ _ slash _ => exact absurd (List.cons.inj same).1.symm slash
      | escape mark' later =>
          simp only [cons_append, List.cons.injEq, true_and] at same
          obtain ⟨rfl, tail⟩ := same
          obtain ⟨rfl, rfl, rfl⟩ := ih later tail
          rw [escape_unique mark mark']
          exact ⟨rfl, rfl, rfl⟩
      | unicode _ _ _ =>
          obtain ⟨rfl, _⟩ := List.cons.inj (List.cons.inj same).2
          exact absurd mark escape_ne_unicode
      | pair _ _ _ _ _ =>
          obtain ⟨rfl, _⟩ := List.cons.inj (List.cons.inj same).2
          exact absurd mark escape_ne_unicode
  | unicode code plain _ ih =>
      cases known' with
      | nil => cases same
      | plain _ _ slash _ => exact absurd (List.cons.inj same).1.symm slash
      | escape mark' _ =>
          obtain ⟨rfl, _⟩ := List.cons.inj (List.cons.inj same).2
          exact absurd mark' escape_ne_unicode
      | unicode code' _ later =>
          simp only [cons_append, List.cons.injEq, true_and] at same
          obtain ⟨rfl, rfl, rfl, rfl, tail⟩ := same
          obtain ⟨rfl, rfl, rfl⟩ := ih later tail
          rw [code] at code'
          rw [Option.some.inj code']
          exact ⟨rfl, rfl, rfl⟩
      | pair high bounds _ _ _ =>
          simp only [cons_append, List.cons.injEq, true_and] at same
          obtain ⟨rfl, rfl, rfl, rfl, _⟩ := same
          rw [code] at high
          rw [Option.some.inj high] at plain
          exact absurd (show _ ∧ _ by omega) plain
  | pair high bounds low bounds' _ ih =>
      cases known' with
      | nil => cases same
      | plain _ _ slash _ => exact absurd (List.cons.inj same).1.symm slash
      | escape mark' _ =>
          obtain ⟨rfl, _⟩ := List.cons.inj (List.cons.inj same).2
          exact absurd mark' escape_ne_unicode
      | unicode code plain _ =>
          simp only [cons_append, List.cons.injEq, true_and] at same
          obtain ⟨rfl, rfl, rfl, rfl, _⟩ := same
          rw [high] at code
          rw [← Option.some.inj code] at plain
          exact absurd (show _ ∧ _ by omega) plain
      | pair high' _ low' _ later =>
          simp only [cons_append, List.cons.injEq, true_and] at same
          obtain ⟨rfl, rfl, rfl, rfl, rfl, rfl, rfl, rfl, tail⟩ := same
          obtain ⟨rfl, rfl, rfl⟩ := ih later tail
          rw [high] at high'
          rw [low] at low'
          rw [Option.some.inj high', Option.some.inj low']
          exact ⟨rfl, rfl, rfl⟩

/-- A text is never longer than its literal. -/
theorem JsonString.length_le (known : JsonString body text) : text.length ≤ body.length := by
  induction known with
  | nil => exact Nat.le_refl 0
  | plain _ _ _ _ ih => exact Nat.succ_le_succ ih
  | escape _ _ ih =>
      simp only [length_cons]
      omega
  | unicode _ _ _ ih =>
      simp only [length_cons]
      omega
  | pair _ _ _ _ _ ih =>
      simp only [length_cons]
      omega

end Tokens

section Reads

variable {Number : Type} {number : List Char → Number → Prop} {depth depth' : Nat} {part : JsonPart}
  {text rest rest' : List Char} {members members' : List (List Char × Json Number)}

theorem Spaces.unique (spaces : Spaces space text rest) (spaces' : Spaces space text rest')
    (ends : ∀ c, rest.head? = some c → ¬space c) (ends' : ∀ c, rest'.head? = some c → ¬space c) : rest = rest' := by
  induction spaces with
  | done text =>
      cases spaces' with
      | done => rfl
      | skip blank _ => exact absurd blank (ends _ rfl)
  | skip blank _ ih =>
      cases spaces' with
      | done => exact absurd blank (ends' _ rfl)
      | skip _ later => exact ih later ends

/-- Spaces end in front of the rest or begin with a space. -/
theorem Spaces.head (spaces : Spaces space text rest) (first : text.head? = some c) :
    space c ∨ rest.head? = some c := by
  cases spaces with
  | done => exact Or.inr first
  | skip blank _ => exact Or.inl (Option.some.inj first ▸ blank)

/-- A character can begin a value. -/
def startsValue (c : Char) : Prop := c ∈ ['t', 'f', 'n', '"', '[', '{', '-'] ∨ isDigit c

instance (c : Char) : Decidable (startsValue c) := inferInstanceAs (Decidable (_ ∨ _))

theorem isDigit_code (digit : isDigit c) : 48 ≤ c.toNat ∧ c.toNat ≤ 57 := digit

theorem startsValue_apart (starts : startsValue c) : ¬isJsonSpace c ∧ c ≠ ',' ∧ c ≠ ']' ∧ c ≠ '}' ∧ c ≠ ':' := by
  rcases starts with member | digit
  · simp only [mem_cons, not_mem_nil, or_false] at member
    rcases member with rfl | rfl | rfl | rfl | rfl | rfl | rfl <;> decide
  · have code := isDigit_code digit
    refine ⟨?_, ?_, ?_, ?_, ?_⟩
    · rintro (rfl | rfl | rfl | rfl) <;> exact absurd code (by decide)
    all_goals
      rintro rfl
      exact absurd code (by decide)

/-- A value is a constant, a number, a string, an array or an object. -/
theorem JsonReads.value_cases (reads : JsonReads number depth .value text rest members) :
    (∃ word value, (word, value) ∈ jsonConstants ∧ text = word ++ rest ∧ members = [([], value)]) ∨
    (∃ token value, number token value ∧ text = token ++ rest ∧ members = [([], .number value)]) ∨
    (∃ body value, JsonString body value ∧ text = '"' :: (body ++ '"' :: rest) ∧ members = [([], .string value)]) ∨
    (∃ inner items depth', JsonReads number depth' (.series false true) inner (']' :: rest) items ∧
      depth = depth' + 1 ∧ text = '[' :: inner ∧ members = [([], .array (items.map Prod.snd))]) ∨
    ∃ inner items depth', JsonReads number depth' (.series true true) inner ('}' :: rest) items ∧
      depth = depth' + 1 ∧ text = '{' :: inner ∧ members = [([], .object (JsonMap.ofMembers items))] := by
  cases reads with
  | constant _ _ member => exact Or.inl ⟨_, _, member, rfl, rfl⟩
  | number _ _ token => exact Or.inr (Or.inl ⟨_, _, token, rfl, rfl⟩)
  | string _ _ body => exact Or.inr (Or.inr (Or.inl ⟨_, _, body, rfl, rfl⟩))
  | array inner => exact Or.inr (Or.inr (Or.inr (Or.inl ⟨_, _, _, inner, rfl, rfl, rfl⟩)))
  | object inner => exact Or.inr (Or.inr (Or.inr (Or.inr ⟨_, _, _, inner, rfl, rfl, rfl⟩)))

theorem constant_head (member : (word, value) ∈ jsonConstants) :
    ∃ c tail, word = c :: tail ∧ c ∈ ['t', 'f', 'n'] := by
  simp only [jsonConstants, mem_cons, Prod.mk.injEq, not_mem_nil, or_false] at member
  rcases member with ⟨rfl, _⟩ | ⟨rfl, _⟩ | ⟨rfl, _⟩ <;> exact ⟨_, _, rfl, by decide⟩

theorem constant_unique {word' : List Char} {value' : Json Number} (member : (word, value) ∈ jsonConstants)
    (member' : (word', value') ∈ jsonConstants) (same : word ++ rest = word' ++ rest') :
    value = value' ∧ rest = rest' := by
  simp only [jsonConstants, mem_cons, Prod.mk.injEq, not_mem_nil, or_false] at member member'
  rcases member with ⟨rfl, rfl⟩ | ⟨rfl, rfl⟩ | ⟨rfl, rfl⟩ <;>
    rcases member' with ⟨rfl, rfl⟩ | ⟨rfl, rfl⟩ | ⟨rfl, rfl⟩ <;> simp_all

variable (numbers : NumberTokens number) {space : Char → Prop} {c : Char} {word tail : List Char} {value : Json Number}
  {keyed fresh : Bool}
include numbers

theorem JsonReads.startsValue (reads : JsonReads number depth .value text rest members) :
    ∃ c tail, text = c :: tail ∧ Pictor.startsValue c := by
  rcases reads.value_cases with ⟨word, value, member, rfl, _⟩ | ⟨token, value, known, rfl, _⟩ |
    ⟨body, value, _, rfl, _⟩ | ⟨inner, items, _, _, _, rfl, _⟩ | ⟨inner, items, _, _, _, rfl, _⟩
  · obtain ⟨c, tail, rfl, first⟩ := constant_head member
    refine ⟨c, _, rfl, Or.inl ?_⟩
    simp only [mem_cons, not_mem_nil, or_false] at first ⊢
    tauto
  · obtain ⟨c, tail, rfl, first⟩ := (numbers.token _ _ known).head
    refine ⟨c, _, rfl, ?_⟩
    rcases first with digit | rfl
    · exact Or.inr digit
    · exact Or.inl (by decide)
  · exact ⟨_, _, rfl, Or.inl (by decide)⟩
  · exact ⟨_, _, rfl, Or.inl (by decide)⟩
  · exact ⟨_, _, rfl, Or.inl (by decide)⟩

/-- The character in front of a number is no other start of a value. -/
theorem number_apart {token : List Char} {value : Number} (known : number token value)
    (same : token ++ rest = c :: tail) : isDigit c ∨ c = '-' := by
  obtain ⟨c', tail', rfl, first⟩ := (numbers.token _ _ known).head
  rw [← (List.cons.inj same).1]
  exact first

/-- The first character decides about the kind of a value. -/
theorem JsonReads.of_head (reads : JsonReads number depth .value (c :: tail) rest members) :
    (c ∈ ['t', 'f', 'n'] ∧ ∃ word value, (word, value) ∈ jsonConstants ∧ c :: tail = word ++ rest ∧
      members = [([], value)]) ∨
    ((isDigit c ∨ c = '-') ∧ ∃ token value, number token value ∧ c :: tail = token ++ rest ∧
      members = [([], .number value)]) ∨ (c = '"' ∧ ∃ body value, JsonString body value ∧ tail = body ++ '"' :: rest ∧
      members = [([], .string value)]) ∨
    (c = '[' ∧ ∃ items depth', JsonReads number depth' (.series false true) tail (']' :: rest) items ∧
      depth = depth' + 1 ∧ members = [([], .array (items.map Prod.snd))]) ∨
    c = '{' ∧ ∃ items depth', JsonReads number depth' (.series true true) tail ('}' :: rest) items ∧
      depth = depth' + 1 ∧ members = [([], .object (JsonMap.ofMembers items))] := by
  rcases reads.value_cases with ⟨word, value, member, same, result⟩ | ⟨token, value, known, same, result⟩ |
    ⟨body, value, known, same, result⟩ | ⟨inner, items, depth', known, deep, same, result⟩ |
    ⟨inner, items, depth', known, deep, same, result⟩
  · obtain ⟨c', tail', rfl, first⟩ := constant_head member
    rw [← (List.cons.inj same).1] at first
    exact Or.inl ⟨first, _, _, member, same, result⟩
  · exact Or.inr (Or.inl ⟨number_apart numbers known same.symm, _, _, known, same, result⟩)
  · obtain ⟨rfl, rfl⟩ := List.cons.inj same
    exact Or.inr (Or.inr (Or.inl ⟨rfl, _, _, known, rfl, result⟩))
  · obtain ⟨rfl, rfl⟩ := List.cons.inj same
    exact Or.inr (Or.inr (Or.inr (Or.inl ⟨rfl, _, _, known, deep, result⟩)))
  · obtain ⟨rfl, rfl⟩ := List.cons.inj same
    exact Or.inr (Or.inr (Or.inr (Or.inr ⟨rfl, _, _, known, deep, result⟩)))

theorem JsonReads.of_quote (reads : JsonReads number depth .value ('"' :: tail) rest members) :
    ∃ body value, JsonString body value ∧ tail = body ++ '"' :: rest ∧ members = [([], .string value)] := by
  rcases reads.of_head numbers with ⟨wrong, _⟩ | ⟨wrong, _⟩ | ⟨_, known⟩ | ⟨wrong, _⟩ | ⟨wrong, _⟩
  · exact absurd wrong (by decide)
  · exact absurd wrong (by decide)
  · exact known
  · exact absurd wrong (by decide)
  · exact absurd wrong (by decide)

theorem JsonReads.of_bracket
    (reads : JsonReads number depth .value ('[' :: tail) rest members) : ∃ items depth', JsonReads number depth' (.series false true) tail (']' :: rest) items ∧
      depth = depth' + 1 ∧ members = [([], .array (items.map Prod.snd))] := by
  rcases reads.of_head numbers with ⟨wrong, _⟩ | ⟨wrong, _⟩ | ⟨wrong, _⟩ | ⟨_, known⟩ | ⟨wrong, _⟩
  · exact absurd wrong (by decide)
  · exact absurd wrong (by decide)
  · exact absurd wrong (by decide)
  · exact known
  · exact absurd wrong (by decide)

theorem JsonReads.of_brace
    (reads : JsonReads number depth .value ('{' :: tail) rest members) : ∃ items depth', JsonReads number depth' (.series true true) tail ('}' :: rest) items ∧
      depth = depth' + 1 ∧ members = [([], .object (JsonMap.ofMembers items))] := by
  rcases reads.of_head numbers with ⟨wrong, _⟩ | ⟨wrong, _⟩ | ⟨wrong, _⟩ | ⟨wrong, _⟩ | ⟨_, known⟩
  · exact absurd wrong (by decide)
  · exact absurd wrong (by decide)
  · exact absurd wrong (by decide)
  · exact absurd wrong (by decide)
  · exact known

omit numbers in
/-- The rest of a part begins where the part cannot go on. -/
def EndsAt (part : JsonPart) (rest : List Char) : Prop :=
  match part with
  | .value => ∀ c, rest.head? = some c → ¬inNumber c
  | .entry _ => ∀ c, rest.head? = some c → ¬inNumber c ∧ ¬isJsonSpace c
  | .series _ _ => rest.head? = some ']' ∨ rest.head? = some '}'

omit numbers in
theorem isJsonSpace_apart (space : isJsonSpace c) : ¬inNumber c := by
  rcases space with rfl | rfl | rfl | rfl <;> decide

omit numbers in
theorem EndsAt.before (ends : EndsAt (.entry keyed) rest) (spaces : Spaces isJsonSpace text rest) :
    EndsAt .value text := by
  intro c first
  rcases spaces.head first with space | first
  · exact isJsonSpace_apart space
  · exact (ends c first).1

omit numbers in
theorem EndsAt.entry {keyed keyed' fresh : Bool} (ends : EndsAt (.series keyed fresh) rest) :
    EndsAt (.entry keyed') rest := by
  intro c first
  rcases ends with same | same <;>
    · rw [same] at first
      rw [← Option.some.inj first]
      decide

omit numbers in
theorem EndsAt.not_space (ends : EndsAt (.series keyed fresh) rest) : ∀ c, rest.head? = some c → ¬isJsonSpace c :=
  fun c first => (@EndsAt.entry rest keyed true fresh ends c first).2

omit numbers in
theorem endsAt_comma (rest : List Char) : EndsAt (.entry keyed) (',' :: rest) := by
  intro c first
  rw [← Option.some.inj first]
  decide

/-- An entry begins with a value behind spaces. -/
theorem JsonReads.entry_start (reads : JsonReads number depth (.entry keyed) text rest members) :
    ∃ c tail, Spaces isJsonSpace text (c :: tail) ∧ Pictor.startsValue c := by
  cases reads with
  | element before value _ =>
      obtain ⟨c, tail, rfl, starts⟩ := value.startsValue numbers
      exact ⟨c, tail, before, starts⟩
  | pair before _ _ _ => exact ⟨_, _, before, Or.inl (by decide)⟩

/-- A closing bracket ends a series without an entry. -/
theorem JsonReads.entry_not_closed {keyed' : Bool} (reads : JsonReads number depth (.entry keyed) text rest members)
    (spaces : Spaces isJsonSpace text rest') (ends : EndsAt (.series keyed' fresh) rest') : False := by
  obtain ⟨c, tail, spaces', starts⟩ := reads.entry_start numbers
  have apart := startsValue_apart starts
  have same := spaces.unique spaces' ends.not_space
    fun c first => Option.some.inj first ▸ apart.1
  subst same
  rcases ends with wrong | wrong
  · exact apart.2.2.1 (Option.some.inj wrong)
  · exact apart.2.2.2.1 (Option.some.inj wrong)

omit numbers in
theorem EndsAt.not_comma (ends : EndsAt (.series keyed fresh) (',' :: rest)) : False := by
  rcases ends with wrong | wrong <;> exact absurd (Option.some.inj wrong) (by decide)

/-- A part of a JSON text ends in one place and denotes one value. -/
theorem JsonReads.unique (first : JsonReads number depth part text rest members)
    (second : JsonReads number depth' part text rest' members') (ends : EndsAt part rest)
    (ends' : EndsAt part rest') : rest = rest' ∧ members = members' := by
  induction first generalizing depth' rest' members' with
  | constant _ rest member =>
      obtain ⟨c, tail, rfl, first⟩ := constant_head member
      rcases second.of_head numbers with ⟨_, _, _, member', same, rfl⟩ | ⟨wrong, _⟩ | ⟨wrong, _⟩ | ⟨wrong, _⟩ |
        ⟨wrong, _⟩
      · obtain ⟨rfl, rfl⟩ := constant_unique member member' same
        exact ⟨rfl, rfl⟩
      all_goals
        simp only [mem_cons, not_mem_nil, or_false] at first
        rcases first with rfl | rfl | rfl <;> exact absurd wrong (by decide)
  | number _ rest known =>
      obtain ⟨c, tail, rfl, first⟩ := (numbers.token _ _ known).head
      have apart : c ∉ ['t', 'f', 'n'] ∧ c ≠ '"' ∧ c ≠ '[' ∧ c ≠ '{' := by
        rcases first with digit | rfl
        · have code := isDigit_code digit
          refine ⟨?_, ?_, ?_, ?_⟩
          · intro member
            simp only [mem_cons, not_mem_nil, or_false] at member
            rcases member with rfl | rfl | rfl <;> exact absurd code (by decide)
          all_goals
            rintro rfl
            exact absurd code (by decide)
        · decide
      rcases second.of_head numbers with ⟨wrong, _⟩ | ⟨_, _, _, known', same, rfl⟩ | ⟨wrong, _⟩ | ⟨wrong, _⟩ |
        ⟨wrong, _⟩
      · exact absurd wrong apart.1
      · obtain ⟨rfl, rfl⟩ := span_unique (numbers.token _ _ known).inNumber (numbers.token _ _ known').inNumber ends
          ends' same
        rw [numbers.unique _ _ _ known known']
        exact ⟨rfl, rfl⟩
      · exact absurd wrong apart.2.1
      · exact absurd wrong apart.2.2.1
      · exact absurd wrong apart.2.2.2
  | string _ rest known =>
      obtain ⟨body, value, known', same, rfl⟩ := second.of_quote numbers
      obtain ⟨rfl, rfl, rfl⟩ := known.unique known' same
      exact ⟨rfl, rfl⟩
  | array _ ih =>
      obtain ⟨items, depth', inner, _, rfl⟩ := second.of_bracket numbers
      obtain ⟨same, rfl⟩ := ih inner (Or.inl rfl) (Or.inl rfl)
      exact ⟨(List.cons.inj same).2, rfl⟩
  | object _ ih =>
      obtain ⟨items, depth', inner, _, rfl⟩ := second.of_brace numbers
      obtain ⟨same, rfl⟩ := ih inner (Or.inr rfl) (Or.inr rfl)
      exact ⟨(List.cons.inj same).2, rfl⟩
  | element before value after ih =>
      cases second with
      | element before' value' after' =>
          obtain ⟨c, tail, rfl, starts⟩ := value.startsValue numbers
          obtain ⟨c', tail', rfl, starts'⟩ := value'.startsValue numbers
          have same := before.unique before' (fun c first => Option.some.inj first ▸ (startsValue_apart starts).1)
            fun c first => Option.some.inj first ▸ (startsValue_apart starts').1
          rw [← same] at value'
          obtain ⟨rfl, rfl⟩ := ih value' (ends.before after) (ends'.before after')
          exact ⟨after.unique after' (fun c first => (ends c first).2) fun c first => (ends' c first).2, rfl⟩
  | pair before key colon value ih =>
      cases second with
      | pair before' key' colon' value' =>
          have same := before.unique before' (fun c first => Option.some.inj first ▸ by decide)
            fun c first => Option.some.inj first ▸ by decide
          obtain ⟨rfl, rfl, rfl⟩ := key.unique key' (List.cons.inj same).2
          have middle := colon.unique colon' (fun c first => Option.some.inj first ▸ by decide)
            fun c first => Option.some.inj first ▸ by decide
          rw [← (List.cons.inj middle).2] at value'
          obtain ⟨rfl, result⟩ := ih value' ends ends'
          cases result
          exact ⟨rfl, rfl⟩
  | none spaces =>
      cases second with
      | none spaces' =>
          exact ⟨spaces.unique spaces' ends.not_space ends'.not_space, rfl⟩
      | last _ entry => exact (entry.entry_not_closed numbers spaces ends).elim
      | more _ entry _ => exact (entry.entry_not_closed numbers spaces ends).elim
  | last fresh entry ih =>
      cases second with
      | none spaces' => exact (entry.entry_not_closed numbers spaces' ends').elim
      | last _ entry' => exact ih entry' ends.entry ends'.entry
      | more _ entry' _ =>
          obtain ⟨rfl, _⟩ := ih entry' ends.entry (endsAt_comma _)
          exact ends.not_comma.elim
  | more fresh entry _ ih ih' =>
      cases second with
      | none spaces' => exact (entry.entry_not_closed numbers spaces' ends').elim
      | last _ entry' =>
          obtain ⟨rfl, _⟩ := ih entry' (endsAt_comma _) ends'.entry
          exact ends'.not_comma.elim
      | more _ entry' series' =>
          obtain ⟨same, rfl⟩ := ih entry' (endsAt_comma _) (endsAt_comma _)
          rw [← (List.cons.inj same).2] at series'
          obtain ⟨rfl, rfl⟩ := ih' series' ends ends'
          exact ⟨rfl, rfl⟩

end Reads

end Pictor
