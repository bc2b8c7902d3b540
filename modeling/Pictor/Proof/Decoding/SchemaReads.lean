import Pictor.Construction.Decoding.JsonSchema

namespace Pictor
open List

open JsonReader LineText

/-- A text without a quote and a backslash needs no escapes. -/
def Unescaped (text : List Char) : Prop := '"' ∉ text ∧ '\\' ∉ text

namespace SchemaType

mutual

/-- The names and the enumerated values that the example holds need no escapes. -/
def Plain : SchemaType → Prop
  | .object properties _ => PlainMembers properties
  | .array (some item) _ _ => Plain item
  | .string (some (first :: _)) _ _ => Unescaped first
  | .anyOf (schema :: _) => Plain schema
  | _ => True

def PlainMembers : List (List Char × SchemaType) → Prop
  | [] => True
  | (name, schema) :: properties => (Unescaped name ∧ Plain schema) ∧ PlainMembers properties

end

mutual

/-- The value of the example. -/
def exampleValue : SchemaType → JsonValue
  | .object properties _ => .object (sortedEntries (memberValues properties))
  | .array (some item) minItems _ => .array (List.replicate (max (minItems.getD 1) 1) (exampleValue item))
  | .array none _ _ => .array []
  | .string enumValues minLength _ => .string (stringExample enumValues minLength)
  | .number minimum _ => .number (minimum.getD (.ofInt 0)).toRat
  | .integer minimum _ => .number (Decimal.ofInt ((minimum.map Int64.toInt).getD 0)).toRat
  | .boolean => .bool true
  | .null => .null
  | .anyOf [] => .null
  | .anyOf (schema :: _) => exampleValue schema

def memberValues : List (List Char × SchemaType) → List (List Char × JsonValue)
  | [] => []
  | (name, schema) :: properties => (name, exampleValue schema) :: memberValues properties

end

theorem memberExamples_eq (properties : List (List Char × SchemaType)) :
    memberExamples properties = properties.map fun member => (member.1, schemaExample member.2) := by
  induction properties with
  | nil => rw [memberExamples, map_nil]
  | cons member properties ih => rw [memberExamples, ih, map_cons]

theorem memberValues_eq (properties : List (List Char × SchemaType)) :
    memberValues properties = properties.map fun member => (member.1, exampleValue member.2) := by
  induction properties with
  | nil => rw [memberValues, map_nil]
  | cons member properties ih => rw [memberValues, ih, map_cons]

section Entries

variable {Entry Entry' : Type} {entries : List (List Char × Entry)} {key : List Char} {entry : Entry}

theorem lookup_map (change : Entry → Entry') :
    (entries.map fun member => (member.1, change member.2)).lookup key = (entries.lookup key).map change := by
  induction entries with
  | nil => rfl
  | cons member entries ih =>
      rw [map_cons, lookup_cons, lookup_cons]
      cases key == member.1 with
      | true => rfl
      | false => exact ih

/-- The entries of a table are the results of its lookups. -/
theorem mem_sortedEntries : (key, entry) ∈ sortedEntries entries ↔ entries.lookup key = some entry := by
  rw [sortedEntries, mem_filterMap]
  constructor
  · rintro ⟨other, _, found⟩
    obtain ⟨entry', known, same⟩ := Option.map_eq_some_iff.mp found
    cases same
    exact known
  · intro known
    refine ⟨key, ?_, by rw [known]; rfl⟩
    rw [mem_insertionSort, mem_dedup]
    obtain ⟨front, back, parts⟩ := lookup_eq_some_iff.mp known
    rw [parts.1]
    simp

theorem sortedEntries_map (change : Entry → Entry') :
    sortedEntries (entries.map fun member => (member.1, change member.2)) =
      (sortedEntries entries).map fun member => (member.1, change member.2) := by
  have names : (entries.map fun member => (member.1, change member.2)).map Prod.fst = entries.map Prod.fst := by
    rw [map_map]
    rfl
  rw [sortedEntries, sortedEntries, names, map_filterMap]
  congr 1
  funext key
  rw [lookup_map, Option.map_map, Option.map_map]
  rfl

theorem sortedEntries_ne_nil (some : entries ≠ []) : sortedEntries entries ≠ [] := by
  cases entries with
  | nil => exact absurd rfl some
  | cons member entries =>
      have first : (member.1, member.2) ∈ sortedEntries (member :: entries) := by
        rw [mem_sortedEntries, lookup_cons_self]
      exact ne_nil_of_mem first

end Entries

end SchemaType

namespace JsonReader

variable {text rest : List Char}

/-- Behind a value, the text ends, or a separator follows. -/
def Stops (rest : List Char) : Prop := ∀ c, rest.head? = some c → c = ',' ∨ c = ']' ∨ c = '}'

theorem Stops.nil : Stops [] := nofun

theorem stringLoop_plain (plain : Unescaped text) (result : List Char) :
    stringLoop (text ++ '"' :: rest) result = .ok (result ++ text, rest) := by
  induction text generalizing result with
  | nil => rw [nil_append, stringLoop, append_nil]
  | cons ch text ih =>
      obtain ⟨quote, slash⟩ := plain
      rw [mem_cons, not_or] at quote slash
      rw [cons_append, stringLoop]
      · rw [ih ⟨quote.2, slash.2⟩, append_assoc, singleton_append]
      all_goals
        intros
        simp_all

theorem digits_span (digits : ∀ c ∈ text, c.isDigit = true) (stop : ∀ c, rest.head? = some c → c.isDigit = false) :
    (text ++ rest).takeWhile Char.isDigit = text ∧ (text ++ rest).dropWhile Char.isDigit = rest := by
  rw [takeWhile_append_of_pos digits, dropWhile_append_of_pos digits]
  cases rest with
  | nil => exact ⟨append_nil text, rfl⟩
  | cons c rest =>
      have other : ¬ c.isDigit = true := by rw [stop c rfl]; decide
      rw [takeWhile_cons_of_neg other, dropWhile_cons_of_neg other, append_nil]
      exact ⟨rfl, rfl⟩

theorem Stops.noDigit (stops : Stops rest) (c : Char) (first : rest.head? = some c) : c.isDigit = false := by
  rcases stops c first with rfl | rfl | rfl <;> rfl

theorem Stops.noExponent (stops : Stops rest) : exponentPart rest = (none, rest) := by
  cases rest with
  | nil => rfl
  | cons c rest =>
      rcases stops c rfl with rfl | rfl | rfl <;> rfl

/-- The text of the parts of a number. -/
def numberText (negative : Bool) (whole : List Char) (fraction : Option (List Char)) : List Char :=
  (if negative then ['-'] else []) ++ (whole ++ (fraction.elim [] ('.' :: ·)))

theorem signPart_reads {negative : Bool} {whole after : List Char} (some : whole ≠ [])
    (digits : ∀ c ∈ whole, c.isDigit = true) :
    signPart ((if negative then ['-'] else []) ++ (whole ++ after)) = (negative, whole ++ after) := by
  cases negative with
  | true => rfl
  | false =>
      obtain ⟨first, whole, rfl⟩ := exists_cons_of_ne_nil some
      rw [if_neg Bool.false_ne_true, nil_append, cons_append, signPart]
      intro _ same
      obtain ⟨rfl, _⟩ := List.cons.inj same
      exact absurd (digits '-' mem_cons_self) (by decide)

theorem fractionPart_reads {fraction : Option (List Char)} (digits : ∀ c ∈ fraction.getD [], c.isDigit = true)
    (stops : Stops rest) : fractionPart (fraction.elim [] ('.' :: ·) ++ rest) = (fraction.getD [], rest) := by
  cases fraction with
  | some fraction =>
      obtain ⟨read, left⟩ := digits_span digits stops.noDigit
      exact congrArg₂ Prod.mk read left
  | none =>
      rw [Option.elim_none, nil_append, fractionPart, Option.getD_none]
      rintro tail rfl
      exact absurd (stops '.' rfl) (by decide)

/-- A number of digits is read up to the separator. -/
theorem parseJsonNumber_reads {negative : Bool} {whole : List Char} {fraction : Option (List Char)} (some : whole ≠ [])
    (digits : ∀ c ∈ whole, c.isDigit = true) (digits' : ∀ c ∈ fraction.getD [], c.isDigit = true) (stops : Stops rest) :
    parseJsonNumber (numberText negative whole fraction ++ rest) =
      .ok (.number ((if negative then -(Nat.ofDigitChars 10 (whole ++ fraction.getD []) 0 : ℚ)
        else (Nat.ofDigitChars 10 (whole ++ fraction.getD []) 0 : ℚ)) / 10 ^ (fraction.getD []).length), rest) := by
  have pointStop : ∀ c, (fraction.elim [] ('.' :: ·) ++ rest).head? = Option.some c → c.isDigit = false := by
    intro c first
    cases fraction with
    | some fraction =>
        cases first
        rfl
    | none => exact stops.noDigit c first
  obtain ⟨read, left⟩ := digits_span digits pointStop
  have token : ¬ (numberText negative whole fraction = [] ∨ numberText negative whole fraction = ['-']) := by
    obtain ⟨first, tail, rfl⟩ := exists_cons_of_ne_nil some
    have member : first ∈ numberText negative (first :: tail) fraction := by
      simp [numberText]
    rintro (none | minus)
    · rw [none] at member
      cases member
    · rw [minus, mem_singleton] at member
      subst member
      exact absurd (digits '-' mem_cons_self) (by decide)
  have present : whole ++ fraction.getD [] ≠ [] := fun none => some (append_eq_nil_iff.mp none).1
  have parts : numberText negative whole fraction ++ rest =
      (if negative then ['-'] else []) ++ (whole ++ (fraction.elim [] ('.' :: ·) ++ rest)) := by
    rw [numberText, append_assoc, append_assoc]
  rw [parseJsonNumber, parts, signPart_reads some digits]
  dsimp only
  rw [read, left, fractionPart_reads digits' stops]
  dsimp only
  rw [stops.noExponent]
  dsimp only
  rw [← parts, length_append, Nat.add_sub_cancel, take_left, if_neg token, numberValue, if_neg present]

theorem display_eq (value : Decimal) : value.display = numberText (value.mantissa < 0) value.integerPart
    (if value.scale = 0 then none else some value.fractionPart) := by
  rw [Decimal.display, Decimal.sign, numberText]
  by_cases whole : value.scale = 0
  · simp [whole]
  · simp [whole]

/-- The signed digits are the mantissa. -/
theorem signed_eq (n : Int) : (if decide (n < 0) then -(n.natAbs : ℚ) else (n.natAbs : ℚ)) = n := by
  rw [Nat.cast_natAbs]
  by_cases negative : n < 0
  · rw [if_pos (decide_eq_true negative), abs_of_neg negative, Int.cast_neg, neg_neg]
  · rw [if_neg (by simpa using negative), abs_of_nonneg (not_lt.mp negative)]

theorem integerPart_whole {value : Decimal} (whole : value.scale = 0) : value.integerPart = value.digits := by
  rw [Decimal.integerPart, whole, Nat.sub_zero, take_length]

/-- The text of a decimal fraction denotes the fraction. -/
theorem display_reads (value : Decimal) (stops : Stops rest) :
    parseJsonNumber (value.display ++ rest) = .ok (.number value.toRat, rest) := by
  rw [display_eq, parseJsonNumber_reads Decimal.integerPart_ne_nil (fun c => Decimal.isDigit_integerPart) _ stops]
  · by_cases whole : value.scale = 0
    · rw [if_pos whole, Option.getD_none, append_nil, integerPart_whole whole, Decimal.ofDigits_digits, signed_eq,
        Decimal.toRat, whole, length_nil]
    · rw [if_neg whole, Option.getD_some, Decimal.digits_split, Decimal.ofDigits_digits, signed_eq,
        Decimal.length_fractionPart, Decimal.toRat]
  · intro c member
    by_cases whole : value.scale = 0
    · rw [if_pos whole] at member
      cases member
    · rw [if_neg whole] at member
      exact Decimal.isDigit_fractionPart member

/-- A point and a zero behind a whole number change nothing. -/
theorem whole_reads {value : Decimal} (whole : value.scale = 0) (stops : Stops rest) :
    parseJsonNumber (value.display ++ ['.', '0'] ++ rest) = .ok (.number value.toRat, rest) := by
  have text : value.display ++ ['.', '0'] = numberText (value.mantissa < 0) value.integerPart (some ['0']) := by
    rw [display_eq, if_pos whole, numberText, numberText]
    simp
  have digits : (Nat.ofDigitChars 10 ['0'] value.mantissa.natAbs : ℚ) = 10 * value.mantissa.natAbs := by
    simp [Nat.ofDigitChars_cons]
  have scaled (n : Int) : (if decide (n < 0) then -(10 * (n.natAbs : ℚ)) else 10 * (n.natAbs : ℚ)) = 10 * n := by
    rw [← signed_eq n]
    split
    · rw [mul_neg]
    · rfl
  rw [text, parseJsonNumber_reads Decimal.integerPart_ne_nil (fun c => Decimal.isDigit_integerPart) (by simp) stops,
    Option.getD_some, integerPart_whole whole, Nat.ofDigitChars_append, Decimal.ofDigits_digits, digits, scaled,
    Decimal.toRat, whole]
  simp

/-- A value starts with a solid character that closes nothing. -/
def Opens (text : List Char) : Prop := ∃ c rest, text = c :: rest ∧ isWhitespace c = false ∧ c ≠ ']'

theorem Opens.append (opens : Opens text) (rest : List Char) : Opens (text ++ rest) := by
  obtain ⟨c, tail, rfl, solid, other⟩ := opens
  exact ⟨c, tail ++ rest, rfl, solid, other⟩

theorem Opens.solid (opens : Opens text) : trimStart text = text := by
  obtain ⟨c, tail, rfl, solid, _⟩ := opens
  rw [trimStart, dropWhile_cons_of_neg (by rw [solid]; decide)]

/-- The reader takes the text for the value and stops at the separator. -/
def Reads (text : List Char) (value : JsonValue) : Prop :=
  ∀ rest fuel, Stops rest → 2 * (text ++ rest).length + 1 ≤ fuel →
    parseJsonValue fuel (text ++ rest) = pure (value, rest)

variable {fuel : Nat} {name : List Char}

theorem lift_ok {Result : Type} (result : Result) : lift (.ok result) = pure result := rfl

/-- A quoted name is read without its quotes. -/
theorem parseJsonString_reads (plain : Unescaped name) :
    parseJsonString (SchemaType.quoted name ++ rest) = .ok (name, rest) := by
  have text : (SchemaType.quoted name ++ rest).tail = name ++ '"' :: rest := by
    rw [SchemaType.quoted, cons_append, tail_cons, append_assoc, singleton_append]
  rw [parseJsonString, text, stringLoop_plain plain, nil_append]

theorem quoted_reads (plain : Unescaped name) : Reads (SchemaType.quoted name) (.string name) := by
  intro rest fuel _ enough
  obtain ⟨fuel, rfl⟩ : ∃ left, fuel = left + 1 := ⟨fuel - 1, by omega⟩
  have trimmed : trimStart (SchemaType.quoted name ++ rest) = SchemaType.quoted name ++ rest := rfl
  have read := @parseJsonString_reads rest name plain
  rw [SchemaType.quoted, cons_append] at trimmed read ⊢
  rw [parseJsonValue, trimmed]
  change (lift (parseJsonString ('"' :: (name ++ ['"'] ++ rest))) >>= fun result =>
    pure (Json.string result.1, result.2)) = _
  rw [read, lift_ok, pure_bind]

theorem isWhitespace_digit {c : Char} (digit : c.isDigit = true) : isWhitespace c = false := by
  rw [Char.isDigit, Bool.and_eq_true, decide_eq_true_eq, decide_eq_true_eq] at digit
  have low : 48 ≤ c.toNat := digit.1
  have high : c.toNat ≤ 57 := digit.2
  rw [isWhitespace]
  simp
  omega

theorem numberStart_solid {first : Char} (start : first = '-' ∨ first.isDigit = true) :
    isWhitespace first = false ∧ first ≠ ']' := by
  rcases start with rfl | digit
  · exact ⟨rfl, by decide⟩
  · refine ⟨isWhitespace_digit digit, ?_⟩
    rintro rfl
    exact absurd digit (by decide)

/-- A number starts with a minus sign or with a digit. -/
theorem number_reads {value : JsonValue} {first : Char} {rest : List Char} (start : first = '-' ∨ first.isDigit = true)
    (reads : ∀ behind, Stops behind → parseJsonNumber (first :: rest ++ behind) = .ok (value, behind)) :
    Reads (first :: rest) value := by
  intro behind fuel stops enough
  obtain ⟨fuel, rfl⟩ : ∃ left, fuel = left + 1 := ⟨fuel - 1, by omega⟩
  have other {c : Char} (apart : ¬ (c = '-' ∨ c.isDigit = true)) : first ≠ c := by
    rintro rfl
    exact apart start
  obtain ⟨solid, _⟩ := numberStart_solid start
  have trimmed : trimStart (first :: rest ++ behind) = first :: rest ++ behind := by
    rw [cons_append, trimStart, dropWhile_cons_of_neg (by rw [solid]; decide)]
  have read := reads behind stops
  rw [cons_append] at trimmed read ⊢
  rw [parseJsonValue, trimmed]
  split
  · rename_i same
    cases same
  · rename_i same
    exact absurd (List.cons.inj same).1 (other (by decide))
  · rename_i same
    exact absurd (List.cons.inj same).1 (other (by decide))
  · rename_i same
    exact absurd (List.cons.inj same).1 (other (by decide))
  · rename_i same
    obtain ⟨rfl, rfl⟩ := List.cons.inj same
    have letter : ¬ (first = 't' ∨ first = 'f') := not_or.mpr ⟨other (by decide), other (by decide)⟩
    rw [if_neg letter, if_neg (other (by decide)), if_pos start, read, lift_ok]

theorem Opens.joinComma (opens : Opens text) (parts : List (List Char)) :
    Opens (SchemaType.joinComma (text :: parts)) := by
  cases parts with
  | nil => exact opens
  | cons next parts => exact opens.append (',' :: SchemaType.joinComma (next :: parts))

theorem joinComma_cons (part next : List Char) (parts : List (List Char)) :
    SchemaType.joinComma (part :: next :: parts) = part ++ ',' :: SchemaType.joinComma (next :: parts) := rfl

theorem Stops.bracket : Stops (']' :: rest) := fun _ same => Or.inr (Or.inl (Option.some.inj same).symm)

theorem Stops.brace : Stops ('}' :: rest) := fun _ same => Or.inr (Or.inr (Option.some.inj same).symm)

theorem Stops.comma : Stops (',' :: rest) := fun _ same => Or.inl (Option.some.inj same).symm

section Array

variable {value : JsonValue} {done : List JsonValue}

theorem arrayLoop_last (read : Reads text value) (enough : 2 * (text ++ ']' :: rest).length + 1 ≤ fuel) :
    arrayLoop (fuel + 1) done (text ++ ']' :: rest) = pure (done ++ [value], rest) := by
  rw [arrayLoop, read _ fuel Stops.bracket enough, pure_bind]
  rfl

theorem arrayLoop_next (read : Reads text value) (enough : 2 * (text ++ ',' :: rest).length + 1 ≤ fuel) :
    arrayLoop (fuel + 1) done (text ++ ',' :: rest) = arrayLoop fuel (done ++ [value]) (trimStart rest) := by
  rw [arrayLoop, read _ fuel Stops.comma enough, pure_bind]
  rfl

/-- The items of an array are read one by one. -/
theorem arrayLoop_reads {items : List (List Char × JsonValue)} (some : items ≠ [])
    (reads : ∀ item ∈ items, Opens item.1 ∧ Reads item.1 item.2)
    (enough : 2 * (SchemaType.joinComma (items.map Prod.fst) ++ ']' :: rest).length + 2 ≤ fuel) :
    arrayLoop fuel done (SchemaType.joinComma (items.map Prod.fst) ++ ']' :: rest) =
      pure (done ++ items.map Prod.snd, rest) := by
  induction items generalizing done fuel with
  | nil => exact absurd rfl some
  | cons item items ih =>
      obtain ⟨fuel, rfl⟩ : ∃ left, fuel = left + 1 := ⟨fuel - 1, by omega⟩
      obtain ⟨_, read⟩ := reads item mem_cons_self
      cases items with
      | nil => exact arrayLoop_last read (by simpa using enough)
      | cons next items =>
          obtain ⟨opens, _⟩ := reads next (mem_cons_of_mem _ mem_cons_self)
          have start := (opens.joinComma (items.map Prod.fst)).append (']' :: rest)
          rw [map_cons, map_cons, joinComma_cons, append_assoc, cons_append] at enough ⊢
          rw [length_append, length_cons] at enough
          rw [arrayLoop_next read (by rw [length_append, length_cons]; omega), start.solid]
          have left := @ih fuel (done ++ [item.2]) (cons_ne_nil _ _)
            (fun item member => reads item (mem_cons_of_mem _ member)) (by rw [map_cons]; omega)
          rw [map_cons] at left
          rw [left, append_assoc]
          rfl

end Array

section Object

variable {value : JsonValue} {done : List (List Char × JsonValue)}

theorem objectLoop_last (plain : Unescaped name) (opens : Opens text) (read : Reads text value)
    (enough : 2 * (text ++ '}' :: rest).length + 1 ≤ fuel) :
    objectLoop (fuel + 1) done (SchemaType.quoted name ++ ':' :: (text ++ '}' :: rest)) =
      pure (done ++ [(name, value)], rest) := by
  have key := @parseJsonString_reads (':' :: (text ++ '}' :: rest)) name plain
  have start : trimStart (':' :: (text ++ '}' :: rest)) = ':' :: (text ++ '}' :: rest) := rfl
  rw [SchemaType.quoted, cons_append] at key ⊢
  rw [objectLoop, key, lift_ok, pure_bind]
  dsimp only
  rw [start]
  change (parseJsonValue fuel (trimStart (text ++ '}' :: rest)) >>= _) = _
  rw [(opens.append _).solid, read _ fuel Stops.brace enough, pure_bind]
  rfl

theorem objectLoop_next (plain : Unescaped name) (opens : Opens text) (read : Reads text value)
    (enough : 2 * (text ++ ',' :: rest).length + 1 ≤ fuel) :
    objectLoop (fuel + 1) done (SchemaType.quoted name ++ ':' :: (text ++ ',' :: rest)) =
      objectLoop fuel (done ++ [(name, value)]) (trimStart rest) := by
  have key := @parseJsonString_reads (':' :: (text ++ ',' :: rest)) name plain
  have start : trimStart (':' :: (text ++ ',' :: rest)) = ':' :: (text ++ ',' :: rest) := rfl
  rw [SchemaType.quoted, cons_append] at key ⊢
  rw [objectLoop, key, lift_ok, pure_bind]
  dsimp only
  rw [start]
  change (parseJsonValue fuel (trimStart (text ++ ',' :: rest)) >>= _) = _
  rw [(opens.append _).solid, read _ fuel Stops.comma enough, pure_bind]
  rfl

/-- A member is its quoted name with its text. -/
def memberText {Entry : Type} (print : Entry → List Char) (member : List Char × Entry) : List Char :=
  SchemaType.quoted member.1 ++ ':' :: print member.2

/-- The members of an object are read one by one. -/
theorem objectLoop_reads {Entry : Type} {print : Entry → List Char} {denote : Entry → JsonValue}
    {members : List (List Char × Entry)} (some : members ≠ []) (reads : ∀ member ∈ members,
      Unescaped member.1 ∧ Opens (print member.2) ∧ Reads (print member.2) (denote member.2))
    (enough : 2 * (SchemaType.joinComma (members.map (memberText print)) ++ '}' :: rest).length + 2 ≤ fuel) :
    objectLoop fuel done (SchemaType.joinComma (members.map (memberText print)) ++ '}' :: rest) =
      pure (done ++ members.map fun member => (member.1, denote member.2), rest) := by
  induction members generalizing done fuel with
  | nil => exact absurd rfl some
  | cons member members ih =>
      obtain ⟨fuel, rfl⟩ : ∃ left, fuel = left + 1 := ⟨fuel - 1, by omega⟩
      obtain ⟨plain, opens, read⟩ := reads member mem_cons_self
      cases members with
      | nil =>
          rw [map_cons, map_nil, SchemaType.joinComma, memberText, append_assoc, cons_append]
            at enough ⊢
          rw [length_append, length_cons] at enough
          exact objectLoop_last plain opens read (by omega)
      | cons next members =>
          have start : Opens (memberText print next) := ⟨'"', _, rfl, rfl, by decide⟩
          have start := (start.joinComma (members.map (memberText print))).append ('}' :: rest)
          rw [map_cons, map_cons, joinComma_cons, memberText, append_assoc, append_assoc,
            cons_append, cons_append] at enough ⊢
          rw [length_append, length_cons, length_append, length_cons] at enough
          rw [objectLoop_next plain opens read (by rw [length_append, length_cons]; omega), start.solid]
          have left := @ih fuel (done ++ [(member.1, denote member.2)]) (cons_ne_nil _ _)
            (fun member known => reads member (mem_cons_of_mem _ known)) (by rw [map_cons]; omega)
          rw [map_cons] at left
          rw [left, append_assoc]
          rfl

end Object

theorem true_reads : Reads "true".toList (.bool true) := by
  intro rest fuel _ enough
  obtain ⟨fuel, rfl⟩ : ∃ left, fuel = left + 1 := ⟨fuel - 1, by omega⟩
  have trimmed : trimStart ("true".toList ++ rest) = 't' :: 'r' :: 'u' :: 'e' :: rest := rfl
  rw [parseJsonValue, trimmed]
  rfl

theorem null_reads : Reads "null".toList .null := by
  intro rest fuel _ enough
  obtain ⟨fuel, rfl⟩ : ∃ left, fuel = left + 1 := ⟨fuel - 1, by omega⟩
  have trimmed : trimStart ("null".toList ++ rest) = 'n' :: 'u' :: 'l' :: 'l' :: rest := rfl
  rw [parseJsonValue, trimmed]
  rfl

theorem emptyObject_reads : Reads ['{', '}'] (.object []) := by
  intro rest fuel _ enough
  obtain ⟨fuel, rfl⟩ : ∃ left, fuel = left + 1 := ⟨fuel - 1, by omega⟩
  have trimmed : trimStart (['{', '}'] ++ rest) = '{' :: '}' :: rest := rfl
  rw [parseJsonValue, trimmed]
  rfl

theorem emptyArray_reads : Reads ['[', ']'] (.array []) := by
  intro rest fuel _ enough
  obtain ⟨fuel, rfl⟩ : ∃ left, fuel = left + 1 := ⟨fuel - 1, by omega⟩
  have trimmed : trimStart (['[', ']'] ++ rest) = '[' :: ']' :: rest := rfl
  rw [parseJsonValue, trimmed]
  rfl

theorem array_reads {items : List (List Char × JsonValue)} (some : items ≠ [])
    (reads : ∀ item ∈ items, Opens item.1 ∧ Reads item.1 item.2) :
    Reads ('[' :: (SchemaType.joinComma (items.map Prod.fst) ++ [']'])) (.array (items.map Prod.snd)) := by
  intro rest fuel _ enough
  obtain ⟨fuel, rfl⟩ : ∃ left, fuel = left + 1 := ⟨fuel - 1, by omega⟩
  rw [cons_append, append_assoc, singleton_append] at enough ⊢
  rw [length_cons] at enough
  have loop := @arrayLoop_reads rest fuel [] items some reads (by omega)
  obtain ⟨item, items, rfl⟩ := exists_cons_of_ne_nil some
  have opens := ((reads item mem_cons_self).1.joinComma (items.map Prod.fst)).append (']' :: rest)
  rw [← map_cons] at opens
  have trimmed := opens.solid
  obtain ⟨c, more, text, _, other⟩ := opens
  rw [text] at loop trimmed ⊢
  have start : trimStart ('[' :: c :: more) = '[' :: c :: more := rfl
  rw [parseJsonValue, start]
  simp only [trimmed]
  split
  · rename_i same
    exact absurd (List.cons.inj same).1 other
  · rw [loop, pure_bind, nil_append]

theorem object_reads {Entry : Type} {print : Entry → List Char} {denote : Entry → JsonValue}
    {members : List (List Char × Entry)} (some : members ≠ []) (reads : ∀ member ∈ members,
      Unescaped member.1 ∧ Opens (print member.2) ∧ Reads (print member.2) (denote member.2)) :
    Reads ('{' :: (SchemaType.joinComma (members.map (memberText print)) ++ ['}']))
      (.object (members.map fun member => (member.1, denote member.2))) := by
  intro rest fuel _ enough
  obtain ⟨fuel, rfl⟩ : ∃ left, fuel = left + 1 := ⟨fuel - 1, by omega⟩
  rw [cons_append, append_assoc, singleton_append] at enough ⊢
  rw [length_cons] at enough
  have loop := @objectLoop_reads rest fuel [] Entry print denote members some reads (by omega)
  obtain ⟨member, members, rfl⟩ := exists_cons_of_ne_nil some
  obtain ⟨more, text⟩ : ∃ more, SchemaType.joinComma ((member :: members).map (memberText print)) ++ '}' :: rest =
      '"' :: more := by
    cases members with
    | nil => exact ⟨_, rfl⟩
    | cons next members => exact ⟨_, rfl⟩
  have trimmed : trimStart ('"' :: more) = '"' :: more := rfl
  have start : trimStart ('{' :: '"' :: more) = '{' :: '"' :: more := rfl
  rw [text] at loop ⊢
  rw [parseJsonValue, start]
  simp only [trimmed]
  change (objectLoop fuel [] ('"' :: more) >>= fun result => pure (Json.object result.1, result.2)) = _
  rw [loop, pure_bind, nil_append]

theorem display_starts (value : Decimal) :
    ∃ first rest, value.display = first :: rest ∧ (first = '-' ∨ first.isDigit = true) := by
  obtain ⟨first, rest, parts⟩ := exists_cons_of_ne_nil (@Decimal.integerPart_ne_nil value)
  rw [Decimal.display, Decimal.sign, parts]
  by_cases negative : value.mantissa < 0
  · rw [if_pos negative]
    exact ⟨'-', _, rfl, Or.inl rfl⟩
  · rw [if_neg negative]
    exact ⟨first, _, rfl, Or.inr (Decimal.isDigit_integerPart (parts ▸ mem_cons_self))⟩

/-- A text that starts like a number is read as one. -/
theorem starts_reads {value : JsonValue} (starts : ∃ first rest, text = first :: rest ∧ (first = '-' ∨ first.isDigit = true))
    (reads : ∀ behind, Stops behind → parseJsonNumber (text ++ behind) = .ok (value, behind)) :
    Opens text ∧ Reads text value := by
  obtain ⟨first, rest, rfl, start⟩ := starts
  exact ⟨⟨first, rest, rfl, numberStart_solid start⟩, number_reads start reads⟩

end JsonReader

namespace SchemaType

theorem numberExample_reads (minimum : Option Decimal) :
    Opens (numberExample minimum) ∧ Reads (numberExample minimum) (.number (minimum.getD (.ofInt 0)).toRat) := by
  rw [numberExample]
  generalize minimum.getD (.ofInt 0) = value
  obtain ⟨first, rest, text, start⟩ := display_starts value
  by_cases whole : value.toRat = ⌊value.toRat⌋
  · rw [if_pos whole]
    have starts : value.display ++ ['.', '0'] = first :: (rest ++ ['.', '0']) := by
      rw [text, cons_append]
    exact starts_reads ⟨first, _, starts, start⟩ fun behind => whole_reads (Decimal.whole_iff.mp whole)
  · rw [if_neg whole]
    exact starts_reads ⟨first, rest, text, start⟩ fun behind => display_reads value

theorem integerExample_reads (value : Decimal) : Opens value.display ∧ Reads value.display (.number value.toRat) :=
  starts_reads (display_starts value) fun _ => display_reads value

/-- The text that stands for a string without enumerated values is plain. -/
theorem stringExample_plain {enumValues : Option (List (List Char))} {minLength maxLength : Option Nat}
    (plain : Plain (.string enumValues minLength maxLength)) : Unescaped (stringExample enumValues minLength) := by
  have padding : Unescaped (if 0 < minLength.getD 0 then List.replicate (minLength.getD 0) 'x' else "example".toList) := by
    split
    · rw [Unescaped, mem_replicate, mem_replicate]
      exact ⟨fun quote => absurd quote.2 (by decide), fun slash => absurd slash.2 (by decide)⟩
    · rw [Unescaped]
      decide
  rcases enumValues with _ | ⟨_ | ⟨first, enums⟩⟩
  · exact padding
  · exact padding
  · rw [Plain] at plain
    exact plain

theorem replicate_reads {text : List Char} {value : JsonValue} (count : Nat) (opens : Opens text)
    (reads : Reads text value) : Reads ('[' :: (joinComma (List.replicate (max count 1) text) ++ [']']))
      (.array (List.replicate (max count 1) value)) := by
  have some : List.replicate (max count 1) (text, value) ≠ [] := by
    rw [ne_nil_iff_length_pos, length_replicate]
    omega
  have read := array_reads some fun item member => by
    rw [eq_of_mem_replicate member]
    exact ⟨opens, reads⟩
  rw [map_replicate, map_replicate] at read
  exact read

theorem properties_read {properties : List (List Char × SchemaType)} (some : properties ≠ [])
    (reads : ∀ member ∈ properties, Unescaped member.1 ∧ Opens (schemaExample member.2) ∧
      Reads (schemaExample member.2) (exampleValue member.2)) :
    Reads ('{' :: (joinComma ((sortedEntries (memberExamples properties)).map fun member =>
      quoted member.1 ++ ':' :: member.2) ++ ['}'])) (.object (sortedEntries (memberValues properties))) := by
  rw [memberExamples_eq, memberValues_eq, sortedEntries_map, sortedEntries_map, map_map]
  refine object_reads (sortedEntries_ne_nil some) ?_
  rintro ⟨key, schema⟩ member
  rw [mem_sortedEntries] at member
  obtain ⟨front, back, parts, _⟩ := lookup_eq_some_iff.mp member
  exact reads (key, schema) (by rw [parts]; simp)

mutual

theorem example_reads : ∀ schema : SchemaType, Plain schema →
    Opens (schemaExample schema) ∧ Reads (schemaExample schema) (exampleValue schema)
  | .object properties required, plain => by
      rw [schemaExample, exampleValue]
      cases properties with
      | nil => exact ⟨⟨'{', _, rfl, rfl, by decide⟩, emptyObject_reads⟩
      | cons member properties =>
          rw [isEmpty_cons, if_neg Bool.false_ne_true]
          exact ⟨⟨'{', _, rfl, rfl, by decide⟩, properties_read (cons_ne_nil _ _) (members_read _ plain)⟩
  | .array (some item) minItems maxItems, plain => by
      rw [schemaExample, exampleValue]
      obtain ⟨opens, reads⟩ := example_reads item plain
      exact ⟨⟨'[', _, rfl, rfl, by decide⟩, replicate_reads _ opens reads⟩
  | .array none minItems maxItems, _ => by
      rw [schemaExample, exampleValue]
      exact ⟨⟨'[', _, rfl, rfl, by decide⟩, emptyArray_reads⟩
  | .string enumValues minLength maxLength, plain => by
      rw [schemaExample, exampleValue]
      exact ⟨⟨'"', _, rfl, rfl, by decide⟩, quoted_reads (stringExample_plain plain)⟩
  | .number minimum maximum, _ => numberExample_reads minimum
  | .integer minimum maximum, _ => integerExample_reads _
  | .boolean, _ => by
      change Opens "true".toList ∧ Reads "true".toList (.bool true)
      exact ⟨⟨'t', _, rfl, rfl, by decide⟩, true_reads⟩
  | .null, _ => by
      change Opens "null".toList ∧ Reads "null".toList .null
      exact ⟨⟨'n', _, rfl, rfl, by decide⟩, null_reads⟩
  | .anyOf [], _ => by
      change Opens "null".toList ∧ Reads "null".toList .null
      exact ⟨⟨'n', _, rfl, rfl, by decide⟩, null_reads⟩
  | .anyOf (schema :: schemas), plain => example_reads schema plain

theorem members_read : ∀ properties : List (List Char × SchemaType), PlainMembers properties →
    ∀ member ∈ properties, Unescaped member.1 ∧ Opens (schemaExample member.2) ∧
      Reads (schemaExample member.2) (exampleValue member.2)
  | [], _ => nofun
  | (name, schema) :: properties, plain => by
      intro member known
      rw [PlainMembers] at plain
      obtain ⟨⟨text, plain⟩, rest⟩ := plain
      rcases mem_cons.mp known with rfl | known
      · exact ⟨text, example_reads schema plain⟩
      · exact members_read properties rest member known

end

/-- The validation of the example is the check of its value. -/
theorem validate_example {schema schema' : SchemaType} (plain : Plain schema) :
    validateAgainstSchema (schemaExample schema) schema' =
      pure (validateValueAgainstSchema schema' (exampleValue schema)) := by
  have read := (example_reads schema plain).2 [] (readerFuel (schemaExample schema)) Stops.nil
  rw [append_nil] at read
  rw [validateAgainstSchema, read le_rfl]
  rfl

end SchemaType

end Pictor
