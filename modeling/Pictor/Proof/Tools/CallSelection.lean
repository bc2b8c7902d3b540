import Pictor.Proof.Tools.CallReading

namespace Pictor.Tools
open List

/-- The text that the constraint of a tool generates around its arguments. -/
def callText (name arguments : List Char) : List Char := callPrefix name ++ (arguments ++ callSuffix)

variable {serde : SerdeJson} {callId name arguments text rest before after : List Char} {depth : Nat} {value : Value}
  {tools : List ToolDefinition}

/-- The parser accepts the generated call and returns its name and its arguments. -/
def Accepted (serde : SerdeJson) (callId : List Char) (tools : List ToolDefinition) (name arguments : List Char) :
    Prop :=
  ∃ call value, selectTool serde callId (callText name arguments) tools = .ok call ∧ call.name = name ∧
    serde.fromStr call.arguments = .ok value ∧ serde.fromStr arguments = .ok value

/-- A call is safe when its name is plain, no tag ends it early, and its arguments are read and written back. -/
structure CallSafe (serde : SerdeJson) (name arguments : List Char) : Prop where
  plain : PlainText name
  nameOpen : ¬endTag <:+: name
  argumentsOpen : ¬endTag <:+: arguments
  value : ∃ value, JsonReads serde.number (readDepth - 1) (.entry false) arguments [] [([], value)] ∧
    serde.fromStr (serde.toString value) = .ok value

theorem callText_eq : callText name arguments = startTag ++ (callObject name (arguments ++ ['}']) ++ endTag) := by
  have opening : "\x7b\"name\":\"".toList = '{' :: '"' :: ("name".toList ++ ['"', ':', '"']) := by decide
  have middle : "\",\"arguments\":".toList = '"' :: ',' :: '"' :: ("arguments".toList ++ ['"', ':']) := by decide
  simp only [callText, callPrefix, callSuffix, callObject, behindName, opening, middle, append_assoc,
    cons_append, nil_append]

theorem endTag_length : endTag.length = 12 := by decide

/-- The end tag lies in the name, in the arguments, or behind the call. -/
theorem endTag_places (place : callObject name (arguments ++ ['}']) ++ endTag = before ++ (endTag ++ after)) :
    (∃ first second, name = first ++ (endTag ++ second) ∧ before.length = first.length + 9) ∨
    (∃ first second, arguments = first ++ (endTag ++ second) ∧
      callObject name (arguments ++ ['}']) = before ++ (endTag ++ (second ++ ['}']))) ∨
    before = callObject name (arguments ++ ['}']) := by
  have quote : '"' ∉ endTag := by decide
  have colon : ':' ∉ endTag := by decide
  have brace : '}' ∉ endTag := by decide
  have length := endTag_length
  have comma : ∀ text middle : List Char, ',' :: text ≠ endTag ++ middle := by
    intro text middle same
    have first := congrArg List.head? same
    rw [head?_append_of_ne_nil _ (by decide)] at first
    exact absurd (first.trans (show endTag.head? = some '<' by decide)) (fun wrong => absurd (Option.some.inj wrong) (by decide))
  obtain ⟨opening, openingEq, openingLength⟩ : ∃ opening, '{' :: '"' :: ("name".toList ++ ['"', ':']) = opening ∧
      opening.length = 8 := ⟨_, rfl, by decide⟩
  obtain ⟨key, keyEq, keyLength⟩ : ∃ key, '"' :: ("arguments".toList ++ ['"']) = key ∧ key.length = 11 :=
    ⟨_, rfl, by decide⟩
  have parts : callObject name (arguments ++ ['}']) =
      opening ++ '"' :: (name ++ '"' :: ((',' :: key) ++ ':' :: (arguments ++ ['}']))) := by
    rw [← openingEq, ← keyEq]
    simp only [callObject, behindName, append_assoc, cons_append, nil_append]
  rw [parts]
  rw [parts] at place
  simp only [append_assoc, cons_append, nil_append] at place
  clear parts openingEq keyEq
  generalize endTag = tag at *
  rcases TextSearch.occurs_beside quote place with ⟨middle, wrong, _⟩ | ⟨front, rfl, place₁⟩
  · have short := congrArg List.length wrong
    simp only [length_append] at short
    omega
  rcases TextSearch.occurs_beside quote place₁ with ⟨middle, rfl, _⟩ | ⟨front, rfl, place₂⟩
  · refine Or.inl ⟨front, middle, rfl, ?_⟩
    simp only [length_append, length_cons]
    omega
  rw [← cons_append] at place₂
  rcases TextSearch.occurs_beside colon place₂ with ⟨middle, wrong, _⟩ | ⟨front, rfl, place₃⟩
  · cases front with
    | nil => exact absurd wrong (comma _ _)
    | cons c front =>
        have short := congrArg List.length wrong
        simp only [length_append, length_cons] at short
        omega
  rcases TextSearch.occurs_beside brace place₃ with ⟨middle, rfl, _⟩ | ⟨front, rfl, place₄⟩
  · refine Or.inr (Or.inl ⟨front, middle, rfl, ?_⟩)
    simp only [append_assoc, cons_append]
  · have short := congrArg List.length place₄
    simp only [length_append] at short
    have empty : front = [] := eq_nil_of_length_eq_zero (by omega)
    subst empty
    refine Or.inr (Or.inr ?_)
    simp only [cons_append]

/-- The parser reads what stands in front of the first end tag. -/
theorem parseToolCall_callText {inner : List Char}
    (found : TextSearch.split endTag (callObject name (arguments ++ ['}']) ++ endTag) = some (inner, after)) :
    parseToolCall serde callId (callText name arguments) =
      (serde.fromStr (LineText.trim inner)).toOption.bind (callOfValue serde callId) := by
  rw [parseToolCall, callText_eq, TextSearch.split_prefix]
  change (TextSearch.split endTag _).bind _ = _
  rw [found]
  rfl

theorem asStr_eq_some : value.asStr = some text ↔ value = .string text := by
  cases value <;> simp [Value.asStr]

/-- The tool call of a value takes its name and its arguments. -/
theorem callOfValue_eq_some {call : ToolCall} (found : callOfValue serde callId value = some call) :
    ∃ map, value = .object map ∧ map.lookup "name".toList = some (.string call.name) ∧
      ∀ args, map.lookup "arguments".toList = some args → call.arguments = serde.toString args := by
  rw [callOfValue, Option.bind_eq_bind, Option.bind_eq_some_iff] at found
  obtain ⟨name, known, same⟩ := found
  obtain ⟨field, member, text⟩ := Option.bind_eq_some_iff.mp known
  cases asStr_eq_some.mp text
  cases value with
  | object map =>
      refine ⟨map, rfl, ?_, fun args stored => ?_⟩
      · cases same
        exact member
      · cases same
        change (match map.lookup "arguments".toList with
          | some args => serde.toString args
          | none => _) = _
        rw [stored]
  | _ => cases member

theorem callOfValue_object {map : JsonMap SerdeNumber} {args : Value}
    (named : map.lookup "name".toList = some (.string name)) (stored : map.lookup "arguments".toList = some args) :
    callOfValue serde callId (.object map) = some ⟨callId, "function".toList, name, serde.toString args⟩ := by
  change ((map.lookup "name".toList).bind Value.asStr).bind (fun name => some (⟨callId, "function".toList, name,
    match map.lookup "arguments".toList with
      | some args => serde.toString args
      | none => _⟩ : ToolCall)) = _
  rw [named, stored]
  rfl

/-- A known tool call with arguments that are read is selected. -/
theorem selectTool_eq_ok {call : ToolCall} {output : List Char} : selectTool serde callId output tools = .ok call ↔
    parseToolCall serde callId output = some call ∧ (tools = [] ∨ call.name ∈ tools.map ToolDefinition.name) ∧
      ∃ value, serde.fromStr call.arguments = .ok value := by
  unfold selectTool
  cases parsed : parseToolCall serde callId output with
  | none => simp
  | some found =>
      by_cases unknown : tools ≠ [] ∧ found.name ∉ tools.map ToolDefinition.name
      · simp only [if_pos unknown, reduceCtorEq, Option.some.injEq, false_iff]
        rintro ⟨rfl, known, _⟩
        rcases known with known | known
        · exact unknown.1 known
        · exact unknown.2 known
      · have known : tools = [] ∨ found.name ∈ tools.map ToolDefinition.name := by
          rwa [Classical.not_and_iff_not_or_not, not_not, not_not] at unknown
        simp only [if_neg unknown, Option.some.injEq]
        cases read : serde.fromStr found.arguments with
        | error reason =>
            simp only [reduceCtorEq, false_iff]
            rintro ⟨rfl, _, value, wrong⟩
            rw [read] at wrong
            cases wrong
        | ok value =>
            constructor
            · rintro same
              cases same
              exact ⟨rfl, known, value, read⟩
            · rintro ⟨rfl, _⟩
              rfl

/-- What is read of a call ends with the call, because nothing in front of its end is closed. -/
theorem inner_reads {inner remain : List Char} {known : Value}
    (closes : JsonReads serde.number readDepth (.entry false) arguments [] [([], known)])
    (parts : callObject name (arguments ++ ['}']) = inner ++ remain) (short : remain.length ≤ arguments.length + 1)
    (reads : JsonReads serde.number readDepth (.entry false) (LineText.trim inner) [] [([], value)]) :
    remain = [] ∧ LineText.trim inner = inner ∧ ∃ items, value = .object (JsonMap.ofMembers items) ∧
      CallMembers serde (readDepth - 1) name (arguments ++ ['}']) known items := by
  obtain ⟨front, back, trimmed, before, space⟩ := LineText.trim_parts inner
  have opened : front = [] := by
    cases front with
    | nil => rfl
    | cons c front =>
        rw [trimmed] at parts
        obtain ⟨rfl, _⟩ := List.cons.inj parts
        exact absurd (before _ mem_cons_self) (by decide)
  rw [opened, nil_append] at trimmed
  have whole := reads.append (back ++ remain)
  rw [nil_append, ← append_assoc, ← trimmed, ← parts] at whole
  cases whole with
  | @element _ _ _ rest _ _ before object after =>
      rw [Spaces.solid before (by decide)] at object
      obtain ⟨blank, same, each⟩ := after.suffix
      have outside : ∀ front, rest ≠ front ++ behindName (arguments ++ ['}']) := by
        intro front wrong
        rw [same, ← append_assoc] at wrong
        have quiet : '"' ∉ blank ++ back := by
          intro member
          rcases mem_append.mp member with member | member
          · exact absurd (each _ member) (by decide)
          · exact absurd (space _ member) (by decide)
        obtain ⟨middle, _, long⟩ := append_apart quiet wrong
        have bound := congrArg List.length long
        simp only [length_append, length_cons, length_nil] at bound
        omega
      obtain ⟨rfl, depth, items, deep, result, inside⟩ := callObject_reads (closes.append ['}']) object outside
      have nothing : back = [] ∧ remain = [] := append_eq_nil_iff.mp (append_eq_nil_iff.mp same.symm).2
      cases result
      have less : depth = readDepth - 1 := by omega
      rw [← less]
      refine ⟨nothing.2, ?_, items, rfl, inside⟩
      rw [nothing.1, append_nil] at trimmed
      exact trimmed.symm

theorem name_inside : name <:+: callObject name arguments := by
  refine ⟨'{' :: '"' :: ("name".toList ++ ['"', ':', '"']), behindName arguments, ?_⟩
  simp only [callObject, append_assoc, cons_append, nil_append]

theorem arguments_inside (behind : List Char) : arguments <:+: callObject name (arguments ++ behind) := by
  refine ⟨'{' :: '"' :: ("name".toList ++ '"' :: ':' :: '"' :: (name ++ '"' :: ',' :: '"' ::
    ("arguments".toList ++ ['"', ':']))), behind, ?_⟩
  simp only [callObject, behindName, append_assoc, cons_append, nil_append]

/-- An end tag inside the call is found in front of the end of the call. -/
theorem endTag_early {inner call : List Char}
    (first : ∀ before' after', call ++ endTag = before' ++ (endTag ++ after') → inner.length ≤ before'.length)
    (whole : inner = call) : ¬endTag <:+: call := by
  rintro ⟨front, back, rfl⟩
  have bound := first front (back ++ endTag) (by simp only [append_assoc])
  rw [whole] at bound
  simp only [length_append, endTag_length] at bound
  omega

/-- A call that the generator writes is selected with its name and arguments exactly when it is safe. -/
theorem accepted_iff (known : name ∈ tools.map ToolDefinition.name) :
    Accepted serde callId tools name arguments ↔ CallSafe serde name arguments := by
  obtain ⟨inner, after, found⟩ := TextSearch.split_exists (callObject name (arguments ++ ['}'])) []
  rw [append_nil] at found
  obtain ⟨place, first⟩ := TextSearch.split_spec found
  have parsed := @parseToolCall_callText serde callId name arguments after inner found
  constructor
  · rintro ⟨call, result, selected, named, written, read⟩
    obtain ⟨parse, _, _⟩ := selectTool_eq_ok.mp selected
    rw [parsed, Option.bind_eq_some_iff] at parse
    obtain ⟨value, taken, built⟩ := parse
    obtain ⟨map, rfl, field, stored⟩ := callOfValue_eq_some built
    rw [named] at field
    have taken' : serde.fromStr (LineText.trim inner) = .ok (.object map) := by
      cases result : serde.fromStr (LineText.trim inner) with
      | error _ =>
          rw [result] at taken
          cases taken
      | ok value =>
          rw [result] at taken
          cases taken
          rfl
    have reads := (serde.fromStr_iff _ _).mp taken'
    have closes := (serde.fromStr_iff _ _).mp read
    rcases endTag_places place with ⟨front, back, rfl, length⟩ | ⟨front, back, rfl, parts⟩ | whole
    · have fits := reads.object_fits field
      obtain ⟨blank, blank', trimmed, _⟩ := LineText.trim_parts inner
      have shorter := congrArg List.length trimmed
      simp only [length_append, endTag_length] at fits shorter
      omega
    · have nothing := (inner_reads closes parts (by
        simp only [length_append, endTag_length, length_singleton]
        omega) reads).1
      exact absurd (append_eq_nil_iff.mp nothing).1 (by decide)
    · have parts : callObject name (arguments ++ ['}']) = inner ++ [] := by rw [whole, append_nil]
      obtain ⟨_, _, items, object, inside⟩ := inner_reads closes parts (Nat.zero_le _) reads
      cases object
      have early := endTag_early first whole
      refine ⟨inside.plain field, fun wrong => early (wrong.trans name_inside),
        fun wrong => early (wrong.trans (arguments_inside _)), result,
        @JsonReads.dropped _ _ _ _ arguments [] ['}'] _ inside.inner, ?_⟩
      rw [← stored _ inside.arguments]
      exact written
  · intro safe
    obtain ⟨value, reads, written⟩ := safe.value
    have whole : inner = callObject name (arguments ++ ['}']) := by
      rcases endTag_places place with ⟨front, back, rfl, _⟩ | ⟨front, back, rfl, _⟩ | whole
      · exact absurd ⟨front, back, append_assoc _ _ _⟩ safe.nameOpen
      · exact absurd ⟨front, back, append_assoc _ _ _⟩ safe.argumentsOpen
      · exact whole
    have trimmed : LineText.trim inner = inner := by
      rw [whole]
      apply LineText.trim_eq
      · intro c head
        rw [← Option.some.inj head]
        decide
      · intro c last
        have ends : callObject name (arguments ++ ['}']) = ('{' :: '"' :: ("name".toList ++ '"' :: ':' :: '"' ::
            (name ++ '"' :: ',' :: '"' :: ("arguments".toList ++ '"' :: ':' :: arguments)))) ++ ['}'] := by
          simp only [callObject, behindName, append_assoc, cons_append]
        rw [ends, getLast?_concat] at last
        rw [← Option.some.inj last]
        decide
    have object := (serde.fromStr_iff _ _).mpr (reads_callObject safe.plain (reads.append ['}']))
    have named : (JsonMap.ofMembers [("name".toList, Json.string name), ("arguments".toList, value)]).lookup
        "name".toList = some (.string name) := by
      rw [JsonMap.ofMembers, foldl_cons, foldl_cons, foldl_nil,
        JsonMap.lookup_insert_other (show "name".toList ≠ "arguments".toList by decide), JsonMap.lookup_insert_self]
    have stored : (JsonMap.ofMembers [("name".toList, Json.string name), ("arguments".toList, value)]).lookup
        "arguments".toList = some value := by
      rw [JsonMap.ofMembers, foldl_cons, foldl_cons, foldl_nil, JsonMap.lookup_insert_self]
    refine ⟨⟨callId, "function".toList, name, serde.toString value⟩, value,
      selectTool_eq_ok.mpr ⟨?_, Or.inr known, value, written⟩, rfl, written,
      (serde.fromStr_iff _ _).mpr (reads.deeper 1)⟩
    rw [parsed, trimmed, whole, object]
    exact callOfValue_object named stored

end Pictor.Tools
