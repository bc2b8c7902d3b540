import Pictor.Proof.Decoding.SchemaReads

namespace Pictor.SchemaType
open List

open JsonReader

/-- The string of an example: the first enumerated value, the least number of letters, or a fixed word. -/
inductive ExampleWord : Option (List (List Char)) → Option Nat → List Char → Prop where
  | first {word enums minLength} : ExampleWord (some (word :: enums)) minLength word
  | padding {enumValues count} (free : enumValues = none ∨ enumValues = some []) (positive : 0 < count) :
      ExampleWord enumValues (some count) (List.replicate count 'x')
  | fixed {enumValues minLength} (free : enumValues = none ∨ enumValues = some [])
      (short : minLength = none ∨ minLength = some 0) : ExampleWord enumValues minLength "example".toList

/-- The number of an example: the minimum, or zero. -/
inductive ExampleNumber : SchemaType → ℚ → Prop where
  | number {minimum maximum} : ExampleNumber (.number minimum maximum) (minimum.elim 0 Decimal.toRat)
  | integer {minimum maximum} :
      ExampleNumber (.integer minimum maximum) (minimum.elim 0 fun bound => (bound.toInt : ℚ))

/-- The number of items of an example: at least one where there is a schema of the items. -/
def exampleCount (items : Option SchemaType) (minItems : Option Nat) : Nat :=
  if items.isNone then 0 else max (minItems.getD 1) 1

/-- A value is between its bounds, where there are any. -/
def Between {Value Bound : Type} [LE Value] (read : Bound → Value) (low high : Option Bound) (value : Value) : Prop :=
  (∀ bound ∈ low, read bound ≤ value) ∧ ∀ bound ∈ high, value ≤ read bound

/-- The example of the first schema suits the second schema: each required key has a property, each enumeration has
the word, each bound is kept, and the parts suit each other. -/
inductive Fits : SchemaType → SchemaType → Prop where
  | object {properties required properties' required'}
      (present : ∀ key ∈ required', key ∈ properties.map Prod.fst)
      (members : ∀ key schema schema', properties.lookup key = some schema → properties'.lookup key = some schema' →
        Fits schema schema') : Fits (.object properties required) (.object properties' required')
  | array {items minItems maxItems items' minItems' maxItems'}
      (bounds : Between id minItems' maxItems' (exampleCount items minItems))
      (parts : ∀ item ∈ items, ∀ item' ∈ items', Fits item item') :
      Fits (.array items minItems maxItems) (.array items' minItems' maxItems')
  | string {enumValues minLength maxLength enumValues' minLength' maxLength' word}
      (chosen : ExampleWord enumValues minLength word) (listed : ∀ enums ∈ enumValues', word ∈ enums)
      (bounds : Between id minLength' maxLength' word.length) :
      Fits (.string enumValues minLength maxLength) (.string enumValues' minLength' maxLength')
  | number {schema n minimum maximum} (chosen : ExampleNumber schema n)
      (bounds : Between Decimal.toRat minimum maximum n) : Fits schema (.number minimum maximum)
  | integer {schema n minimum maximum} (chosen : ExampleNumber schema n) (whole : n.isInt = true)
      (bounds : Between Int64.toInt minimum maximum (toI64 n)) : Fits schema (.integer minimum maximum)
  | boolean : Fits .boolean .boolean
  | null : Fits .null .null
  | noChoice : Fits (.anyOf []) .null
  | firstChoice {first rest schema} (fits : Fits first schema) : Fits (.anyOf (first :: rest)) schema
  | choice {schema first schemas} (member : first ∈ schemas) (fits : Fits schema first) : Fits schema (.anyOf schemas)

section Bounds

variable {Value Bound : Type} [LE Value] [DecidableLE Value] {read : Bound → Value} {low high : Option Bound}
  {value : Value}

theorem within_iff : within read low high value = true ↔ Between read low high value := by
  rw [within, Between, Bool.and_eq_true]
  cases low <;> cases high <;> simp

end Bounds

section Examples

variable {enumValues : Option (List (List Char))} {minLength : Option Nat} {word : List Char} {schema : SchemaType}
  {n : ℚ}

theorem exampleWord_iff : ExampleWord enumValues minLength word ↔ word = stringExample enumValues minLength := by
  constructor
  · intro chosen
    cases chosen with
    | first => rfl
    | padding free positive =>
        rcases free with rfl | rfl <;> rw [stringExample, Option.getD_some, if_pos positive] <;> exact nofun
    | fixed free short =>
        rcases free with rfl | rfl <;> rcases short with rfl | rfl <;> rfl
  · rintro rfl
    have other (free : enumValues = none ∨ enumValues = some []) (word : List Char)
        (same : word = if 0 < minLength.getD 0 then List.replicate (minLength.getD 0) 'x' else "example".toList) :
        ExampleWord enumValues minLength word := by
      subst same
      rcases minLength with _ | _ | count
      · exact .fixed free (Or.inl rfl)
      · exact .fixed free (Or.inr rfl)
      · exact .padding free (Nat.succ_pos count)
    rcases enumValues with _ | ⟨_ | ⟨first, enums⟩⟩
    · exact other (Or.inl rfl) _ rfl
    · exact other (Or.inr rfl) _ rfl
    · exact .first

theorem ExampleNumber.value_eq (chosen : ExampleNumber schema n) : exampleValue schema = .number n := by
  have zero : (Decimal.ofInt 0).toRat = 0 := by
    rw [Decimal.ofInt, Decimal.toRat, Int.cast_zero, zero_div]
  cases chosen with
  | @number minimum =>
      rw [exampleValue]
      cases minimum with
      | none => rw [Option.getD_none, zero, Option.elim_none]
      | some bound => rfl
  | @integer minimum =>
      rw [exampleValue]
      cases minimum with
      | none => rw [Option.map_none, Option.getD_none, zero, Option.elim_none]
      | some bound =>
          rw [Option.map_some, Option.getD_some, Decimal.ofInt, Decimal.toRat, pow_zero, div_one, Option.elim_some]

theorem exampleNumber_of_value (same : exampleValue schema = .number n)
    (own : ¬ ∃ first rest, schema = .anyOf (first :: rest)) : ExampleNumber schema n := by
  cases schema with
  | number minimum maximum =>
      have chosen := @ExampleNumber.number minimum maximum
      rw [chosen.value_eq, Json.number.injEq] at same
      exact same ▸ chosen
  | integer minimum maximum =>
      have chosen := @ExampleNumber.integer minimum maximum
      rw [chosen.value_eq, Json.number.injEq] at same
      exact same ▸ chosen
  | array items minItems maxItems => cases items <;> (rw [exampleValue] at same; cases same)
  | anyOf schemas =>
      cases schemas with
      | nil =>
          rw [exampleValue] at same
          cases same
      | cons first rest => exact absurd ⟨first, rest, rfl⟩ own
  | _ =>
      rw [exampleValue] at same
      cases same

end Examples

section Validation

variable {properties properties' : List (List Char × SchemaType)} {required required' : List (List Char)}
  {key : List Char} {value : JsonValue}

section Kinds

variable {pairs : List (List Char × JsonValue)} {arr : List JsonValue} {minItems maxItems : Option Nat} {n : ℚ}

theorem validate_pairs : validateValueAgainstSchema (.object properties required) (.object pairs) =
    (required.all (fun key => pairs.any fun pair => pair.1 = key) &&
      pairs.all fun pair => validateMember properties pair.1 pair.2) := rfl

theorem validate_items {items : SchemaType} : validateValueAgainstSchema (.array (some items) minItems maxItems) (.array arr) =
    (within id minItems maxItems arr.length && arr.all fun elem => validateValueAgainstSchema items elem) := rfl

theorem validate_length : validateValueAgainstSchema (.array none minItems maxItems) (.array arr) =
    within id minItems maxItems arr.length := rfl

variable {maxLength : Option Nat} {schemas : List SchemaType}

theorem validate_word {enumValues : Option (List (List Char))} {minLength : Option Nat} {word : List Char} :
    validateValueAgainstSchema (.string enumValues minLength maxLength) (.string word) =
      (enumValues.all (fun enums => word ∈ enums) && within id minLength maxLength word.length) := rfl

theorem validate_number {minimum maximum : Option Decimal} : validateValueAgainstSchema (.number minimum maximum) (.number n) =
    within Decimal.toRat minimum maximum n := rfl

theorem validate_integer {minimum maximum : Option Int64} : validateValueAgainstSchema (.integer minimum maximum) (.number n) =
    (n.isInt && within Int64.toInt minimum maximum (toI64 n)) := rfl

theorem validate_any : validateValueAgainstSchema (.anyOf schemas) value = validateAny schemas value :=
  rfl

end Kinds

theorem validateMember_iff : validateMember properties key value = true ↔
    ∀ schema, properties.lookup key = some schema → validateValueAgainstSchema schema value = true := by
  induction properties with
  | nil => simp [validateMember]
  | cons member properties ih =>
      rw [validateMember, lookup_cons]
      by_cases same : key = member.1
      · rw [if_pos same, beq_iff_eq.mpr same]
        simp
      · rw [if_neg same, beq_eq_false_iff_ne.mpr same]
        exact ih

theorem validateAny_iff :
    validateAny schemas value = true ↔ ∃ schema ∈ schemas, validateValueAgainstSchema schema value = true := by
  induction schemas with
  | nil => simp [validateAny]
  | cons schema schemas ih => simp [validateAny, ih]

theorem lookup_some_iff {Entry : Type} {entries : List (List Char × Entry)} :
    (∃ entry, entries.lookup key = some entry) ↔ key ∈ entries.map Prod.fst := by
  induction entries with
  | nil => simp
  | cons member entries ih =>
      rw [lookup_cons, map_cons, mem_cons]
      by_cases same : key = member.1
      · rw [beq_iff_eq.mpr same]
        exact ⟨fun _ => Or.inl same, fun _ => ⟨member.2, rfl⟩⟩
      · rw [beq_eq_false_iff_ne.mpr same, or_iff_right same]
        exact ih

theorem mem_memberValues : (key, value) ∈ sortedEntries (memberValues properties) ↔
    ∃ schema, properties.lookup key = some schema ∧ exampleValue schema = value := by
  rw [memberValues_eq, mem_sortedEntries, lookup_map, Option.map_eq_some_iff]

/-- The example of an object has all properties. -/
theorem validate_object : validateValueAgainstSchema (.object properties' required')
      (exampleValue (.object properties required)) = true ↔ (∀ key ∈ required', key ∈ properties.map Prod.fst) ∧
      ∀ key schema schema', properties.lookup key = some schema → properties'.lookup key = some schema' →
        validateValueAgainstSchema schema' (exampleValue schema) = true := by
  rw [exampleValue, validate_pairs, Bool.and_eq_true, all_eq_true, all_eq_true]
  have present (key : List Char) : ((sortedEntries (memberValues properties)).any fun pair => pair.1 = key) = true ↔
      key ∈ properties.map Prod.fst := by
    rw [any_eq_true, ← lookup_some_iff]
    constructor
    · rintro ⟨⟨name, value⟩, member, same⟩
      obtain ⟨schema, found, _⟩ := mem_memberValues.mp member
      rw [decide_eq_true_eq] at same
      exact ⟨schema, same ▸ found⟩
    · rintro ⟨schema, found⟩
      exact ⟨(key, exampleValue schema), mem_memberValues.mpr ⟨schema, found, rfl⟩, decide_eq_true rfl⟩
  refine and_congr (forall₂_congr fun key _ => present key) ?_
  constructor
  · intro each key schema schema' found found'
    exact validateMember_iff.mp (each (key, exampleValue schema) (mem_memberValues.mpr ⟨schema, found, rfl⟩)) schema' found'
  · rintro each ⟨key, value⟩ member
    obtain ⟨schema, found, rfl⟩ := mem_memberValues.mp member
    exact validateMember_iff.mpr fun schema' found' => each key schema schema' found found'

/-- The example of an array has copies of one item. -/
theorem validate_array {items items' : Option SchemaType} {minItems maxItems minItems' maxItems' : Option Nat} :
    validateValueAgainstSchema (.array items' minItems' maxItems') (exampleValue (.array items minItems maxItems)) = true ↔
      Between id minItems' maxItems' (exampleCount items minItems) ∧
        ∀ item ∈ items, ∀ item' ∈ items', validateValueAgainstSchema item' (exampleValue item) = true := by
  obtain ⟨arr, shown, length, each⟩ : ∃ arr, exampleValue (.array items minItems maxItems) = .array arr ∧
      arr.length = exampleCount items minItems ∧ ∀ value, value ∈ arr ↔ ∃ item ∈ items, value = exampleValue item := by
    cases items with
    | none => exact ⟨[], by rw [exampleValue], rfl, by simp⟩
    | some item =>
        refine ⟨List.replicate (max (minItems.getD 1) 1) (exampleValue item), by rw [exampleValue],
          length_replicate, fun value => ?_⟩
        rw [mem_replicate]
        constructor
        · rintro ⟨_, rfl⟩
          exact ⟨item, rfl, rfl⟩
        · rintro ⟨_, same, rfl⟩
          cases same
          exact ⟨by omega, rfl⟩
  rw [shown, ← length]
  cases items' with
  | none =>
      rw [validate_length, within_iff]
      exact ⟨fun bounds => ⟨bounds, fun _ _ _ => nofun⟩, And.left⟩
  | some item' =>
      rw [validate_items, Bool.and_eq_true, within_iff, all_eq_true]
      refine and_congr_right fun _ => ⟨?_, ?_⟩
      · intro admitted item known other same
        cases same
        exact admitted _ ((each _).mpr ⟨item, known, rfl⟩)
      · intro admitted value member
        obtain ⟨item, known, rfl⟩ := (each value).mp member
        exact admitted item known item' rfl

theorem validate_string {enumValues enumValues' : Option (List (List Char))}
    {minLength minLength' maxLength' : Option Nat} :
    validateValueAgainstSchema (.string enumValues' minLength' maxLength')
        (exampleValue (.string enumValues minLength maxLength)) = true ↔
      (∀ enums ∈ enumValues', stringExample enumValues minLength ∈ enums) ∧
        Between id minLength' maxLength' (stringExample enumValues minLength).length := by
  rw [exampleValue, validate_word, Bool.and_eq_true, within_iff]
  cases enumValues' <;> simp

/-- A value fits one of the choices. -/
theorem validate_choice : validateValueAgainstSchema (.anyOf schemas) value = true ↔
    ∃ schema ∈ schemas, validateValueAgainstSchema schema value = true := by
  rw [validate_any, validateAny_iff]

end Validation

theorem Fits.admitted {schema schema' : SchemaType} (fits : Fits schema schema') :
    validateValueAgainstSchema schema' (exampleValue schema) = true := by
  induction fits with
  | object present _ ih => exact validate_object.mpr ⟨present, ih⟩
  | array bounds _ ih => exact validate_array.mpr ⟨bounds, ih⟩
  | string chosen listed bounds =>
      rw [exampleWord_iff] at chosen
      subst chosen
      exact validate_string.mpr ⟨listed, bounds⟩
  | number chosen bounds => rw [chosen.value_eq, validate_number, within_iff]; exact bounds
  | integer chosen whole bounds =>
      rw [chosen.value_eq, validate_integer, Bool.and_eq_true, within_iff]
      exact ⟨whole, bounds⟩
  | boolean => rfl
  | null => rfl
  | noChoice => rfl
  | firstChoice _ ih => rw [exampleValue]; exact ih
  | choice member _ ih => exact validate_choice.mpr ⟨_, member, ih⟩

theorem sizeOf_lookup {properties : List (List Char × SchemaType)} {key : List Char} {schema : SchemaType}
    (found : properties.lookup key = some schema) : sizeOf schema < sizeOf properties := by
  obtain ⟨front, back, parts, _⟩ := lookup_eq_some_iff.mp found
  have member : (key, schema) ∈ properties := by
    rw [parts]
    exact mem_append_right _ mem_cons_self
  have inside := sizeOf_lt_of_mem member
  simp only [Prod.mk.sizeOf_spec] at inside
  omega

/-- The kinds agree, or one of the schemas is a choice. -/
theorem Fits.of_admitted (schema schema' : SchemaType)
    (admitted : validateValueAgainstSchema schema' (exampleValue schema) = true) : Fits schema schema' := by
  induction total : sizeOf schema + sizeOf schema' using Nat.strong_induction_on generalizing schema schema' with
  | h size ih =>
  subst total
  by_cases chosen : ∃ first rest, schema = .anyOf (first :: rest)
  · obtain ⟨first, rest, rfl⟩ := chosen
    rw [exampleValue] at admitted
    exact .firstChoice (ih _ (by simp; omega) _ _ admitted rfl)
  cases schema' with
  | anyOf schemas =>
      obtain ⟨schema', member, admitted⟩ := validate_choice.mp admitted
      have inside := sizeOf_lt_of_mem member
      exact .choice member (ih _ (by simp; omega) _ _ admitted rfl)
  | object properties' required' =>
      cases schema with
      | object properties required =>
          obtain ⟨present, members⟩ := validate_object.mp admitted
          refine .object present fun key schema schema' found found' => ?_
          have inside := sizeOf_lookup found
          have inside' := sizeOf_lookup found'
          exact ih _ (by simp; omega) _ _ (members key schema schema' found found') rfl
      | array items => cases items <;> exact absurd admitted Bool.false_ne_true
      | anyOf schemas =>
          cases schemas with
          | nil => exact absurd admitted Bool.false_ne_true
          | cons first rest => exact absurd ⟨first, rest, rfl⟩ chosen
      | _ => exact absurd admitted Bool.false_ne_true
  | array items' minItems' maxItems' =>
      cases schema with
      | array items minItems maxItems =>
          obtain ⟨bounds, parts⟩ := validate_array.mp admitted
          refine .array bounds fun item known item' known' => ?_
          cases known
          cases known'
          exact ih _ (by simp; omega) _ _ (parts item rfl item' rfl) rfl
      | anyOf schemas =>
          cases schemas with
          | nil => cases items' <;> exact absurd admitted Bool.false_ne_true
          | cons first rest => exact absurd ⟨first, rest, rfl⟩ chosen
      | _ => cases items' <;> exact absurd admitted Bool.false_ne_true
  | string enumValues' minLength' maxLength' =>
      cases schema with
      | string enumValues minLength maxLength =>
          obtain ⟨listed, bounds⟩ := validate_string.mp admitted
          exact .string (exampleWord_iff.mpr rfl) listed bounds
      | array items => cases items <;> exact absurd admitted Bool.false_ne_true
      | anyOf schemas =>
          cases schemas with
          | nil => exact absurd admitted Bool.false_ne_true
          | cons first rest => exact absurd ⟨first, rest, rfl⟩ chosen
      | _ => exact absurd admitted Bool.false_ne_true
  | number minimum' maximum' =>
      obtain ⟨n, same⟩ : ∃ n, exampleValue schema = .number n := by
        cases value : exampleValue schema with
        | number n => exact ⟨n, rfl⟩
        | _ =>
            rw [value] at admitted
            exact absurd admitted Bool.false_ne_true
      rw [same, validate_number, within_iff] at admitted
      exact .number (exampleNumber_of_value same chosen) admitted
  | integer minimum' maximum' =>
      obtain ⟨n, same⟩ : ∃ n, exampleValue schema = .number n := by
        cases value : exampleValue schema with
        | number n => exact ⟨n, rfl⟩
        | _ =>
            rw [value] at admitted
            exact absurd admitted Bool.false_ne_true
      rw [same, validate_integer, Bool.and_eq_true, within_iff] at admitted
      exact .integer (exampleNumber_of_value same chosen) admitted.1 admitted.2
  | boolean =>
      cases schema with
      | boolean => exact .boolean
      | array items => cases items <;> exact absurd admitted Bool.false_ne_true
      | anyOf schemas =>
          cases schemas with
          | nil => exact absurd admitted Bool.false_ne_true
          | cons first rest => exact absurd ⟨first, rest, rfl⟩ chosen
      | _ => exact absurd admitted Bool.false_ne_true
  | null =>
      cases schema with
      | null => exact .null
      | array items => cases items <;> exact absurd admitted Bool.false_ne_true
      | anyOf schemas =>
          cases schemas with
          | nil => exact .noChoice
          | cons first rest => exact absurd ⟨first, rest, rfl⟩ chosen
      | _ => exact absurd admitted Bool.false_ne_true

/-- The example of a schema satisfies the schema when it suits the schema. -/
theorem schemaExample_iff {schema : SchemaType} (plain : Plain schema) :
    ((∃ value, validateValueAgainstSchema schema value = true) →
      (validateAgainstSchema (schemaExample schema) schema).run = some (.ok true)) ↔
    ((∃ value, validateValueAgainstSchema schema value = true) → Fits schema schema) := by
  rw [validate_example plain]
  refine imp_congr_right fun _ => ?_
  constructor
  · intro result
    exact Fits.of_admitted schema schema (Except.ok.inj (Option.some.inj result))
  · intro fits
    exact congrArg (fun answer => some (Except.ok answer)) fits.admitted

/-- An object with a bounded number and a list of short words. -/
def boundedSchema : SchemaType :=
  .object [("n".toList, .integer (some 1) (some 3)),
    ("tags".toList, .array (some (.string none (some 2) (some 4))) (some 2) none)] ["n".toList]

theorem schemaExample_bounded : (validateAgainstSchema (schemaExample boundedSchema) boundedSchema).run = some (.ok true) := by
  have plain : Plain boundedSchema := by
    simp only [boundedSchema, Plain, PlainMembers, Unescaped]
    decide
  have admits : ∃ value, validateValueAgainstSchema boundedSchema value = true :=
    ⟨.object [("n".toList, .number 2)], by decide⟩
  exact (schemaExample_iff plain).mpr (fun _ => Fits.of_admitted _ _ (by decide +kernel)) admits

/-- The fixed word is longer than the schema allows. -/
theorem schemaExample_tooLong : (∃ value, validateValueAgainstSchema (.string none none (some 3)) value = true) ∧
    (validateAgainstSchema (schemaExample (.string none none (some 3))) (.string none none (some 3))).run ≠
      some (.ok true) :=
  ⟨⟨.string "abc".toList, by decide⟩, by decide⟩

end Pictor.SchemaType
