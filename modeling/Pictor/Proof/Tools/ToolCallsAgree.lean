import Mathlib.Data.List.Pairwise
import Pictor.Proof.Tools.CallSelection

namespace Pictor.Tools

/-- A grammar has its place in the merged grammar behind the grammars of earlier tools. -/
structure PlacedTool where
  offset : Nat
  tool : ToolDefinition
  grammar : Grammar

def placed : Nat → List (ToolDefinition × Grammar) → List PlacedTool
  | _, [] => []
  | nextNt, (tool, argGrammar) :: rest =>
      ⟨nextNt, tool, argGrammar⟩ :: placed (nextNt + argNtCount argGrammar) rest

namespace PlacedTool

/-- The identifiers that the merged grammar uses for the tool. -/
def ids (place : PlacedTool) : List NonTerminalId :=
  (place.grammar.start :: ruleIds place.grammar).map (· + place.offset)

def rules (place : PlacedTool) : List Rule :=
  place.grammar.rules.map (shiftRule place.offset) ++ [rootRule place.tool (place.grammar.start + place.offset)]

/-- Two tools have no identifier in common. -/
def Apart (first second : PlacedTool) : Prop := ∀ id ∈ first.ids, id ∉ second.ids

instance : Std.Symm Apart where
  symm _ _ apart id member member' := apart id member' member

end PlacedTool

variable {grammar merged : Grammar} {list : List (ToolDefinition × Grammar)} {word : List UInt8}

theorem mergeTool_rules (toolIdx nextNt : Nat) (tool : ToolDefinition) :
    (mergeTool toolIdx nextNt merged tool grammar).rules = merged.rules ++ PlacedTool.rules ⟨nextNt, tool, grammar⟩ ∧
      (mergeTool toolIdx nextNt merged tool grammar).start = merged.start := by
  have allocated (names : List Nat) (merged : Grammar) :
      (names.foldl (fun grammar ntJ =>
        (grammar.allocNt ("t" ++ toString toolIdx ++ "_nt" ++ toString ntJ)).2) merged).rules = merged.rules ∧
      (names.foldl (fun grammar ntJ =>
        (grammar.allocNt ("t" ++ toString toolIdx ++ "_nt" ++ toString ntJ)).2) merged).start = merged.start := by
    induction names generalizing merged with
    | nil => exact ⟨rfl, rfl⟩
    | cons name names ih => exact ih (merged.allocNt _).2
  have copied (rules : List Rule) (merged : Grammar) :
      (rules.foldl (fun grammar rule => grammar.addRule (shiftRule nextNt rule)) merged).rules =
        merged.rules ++ rules.map (shiftRule nextNt) ∧
      (rules.foldl (fun grammar rule => grammar.addRule (shiftRule nextNt rule)) merged).start = merged.start := by
    induction rules generalizing merged with
    | nil => exact ⟨(List.append_nil _).symm, rfl⟩
    | cons rule rules ih =>
        rw [List.foldl_cons, (ih _).1, (ih _).2, Grammar.addRule, List.map_cons, List.append_assoc,
          List.singleton_append]
        exact ⟨rfl, rfl⟩
  constructor
  · rw [mergeTool, Grammar.addRule, PlacedTool.rules]
    dsimp only
    rw [(copied _ _).1, (allocated _ _).1, List.append_assoc]
  · rw [mergeTool, Grammar.addRule]
    dsimp only
    rw [(copied _ _).2, (allocated _ _).2]

theorem mergeLoop_rules (toolIdx nextNt : Nat) : (mergeLoop toolIdx nextNt merged list).rules =
    merged.rules ++ (placed nextNt list).flatMap PlacedTool.rules ∧
      (mergeLoop toolIdx nextNt merged list).start = merged.start := by
  induction list generalizing toolIdx nextNt merged with
  | nil => exact ⟨(List.append_nil _).symm, rfl⟩
  | cons first rest ih =>
      obtain ⟨tool, argGrammar⟩ := first
      obtain ⟨rules, start⟩ := @mergeTool_rules argGrammar merged toolIdx nextNt tool
      rw [mergeLoop, (ih _ _).1, (ih _ _).2, rules, start, placed, List.flatMap_cons, List.append_assoc]
      exact ⟨rfl, rfl⟩

theorem mem_ruleIds {id : NonTerminalId} : id ∈ ruleIds grammar ↔
    ∃ rule ∈ grammar.rules, id = rule.lhs ∨ .nonTerminal id ∈ rule.rhs := by
  simp only [ruleIds, List.mem_flatMap, List.mem_cons, List.mem_filterMap]
  constructor
  · rintro ⟨rule, member, rfl | ⟨symbol, inside, found⟩⟩
    · exact ⟨rule, member, Or.inl rfl⟩
    · cases symbol with
      | terminal _ => cases found
      | nonTerminal id' =>
          cases found
          exact ⟨rule, member, Or.inr inside⟩
  · rintro ⟨rule, member, rfl | inside⟩
    · exact ⟨rule, member, Or.inl rfl⟩
    · exact ⟨rule, member, Or.inr ⟨_, inside, rfl⟩⟩

/-- The count of a grammar bounds the identifiers of its rules. -/
theorem ruleIds_lt {id : NonTerminalId} (member : id ∈ ruleIds grammar) : id < argNtCount grammar := by
  rw [argNtCount]
  cases largest : (ruleIds grammar).max? with
  | none =>
      rw [List.max?_eq_none_iff.mp largest] at member
      cases member
  | some bound => exact Nat.lt_succ_of_le ((List.max?_eq_some_iff.mp largest).2 id member)

/-- A later tool has its identifiers behind those of the rules of an earlier one. -/
theorem placed_sorted (nextNt : Nat) : (∀ place ∈ placed nextNt list, nextNt ≤ place.offset) ∧
    (placed nextNt list).Pairwise fun first second => first.offset + argNtCount first.grammar ≤ second.offset := by
  induction list generalizing nextNt with
  | nil => exact ⟨fun place member => absurd member List.not_mem_nil, List.Pairwise.nil⟩
  | cons first rest ih =>
      obtain ⟨tool, argGrammar⟩ := first
      obtain ⟨later, sorted⟩ := ih (nextNt + argNtCount argGrammar)
      constructor
      · intro place member
        rcases List.mem_cons.mp member with rfl | member
        · exact Nat.le_refl _
        · exact (Nat.le_add_right _ _).trans (later place member)
      · exact List.pairwise_cons.mpr ⟨later, sorted⟩

theorem place_bound {own bound offset later id : Nat} (inside : own < bound) (sorted : offset + bound ≤ later) :
    id + later ≠ own + offset := by omega

theorem place_positive {offset id : Nat} (positive : 1 ≤ offset) : 0 ≠ id + offset := by omega

/-- Only the start of a grammar can meet the identifiers of a later tool. -/
theorem ids_apart {first second : PlacedTool} (sorted : first.offset + argNtCount first.grammar ≤ second.offset) :
    first.Apart second ↔ first.grammar.start + first.offset ∉ second.ids := by
  constructor
  · intro apart
    exact apart _ (List.mem_map_of_mem List.mem_cons_self)
  · intro apart id member
    obtain ⟨own, inside, rfl⟩ := List.mem_map.mp member
    rcases List.mem_cons.mp inside with rfl | inside
    · exact apart
    · intro other
      obtain ⟨id', _, same⟩ := List.mem_map.mp other
      exact place_bound (ruleIds_lt inside) sorted same

/-- The rules of the merged grammar for an identifier are the shifted rules of one grammar. -/
structure Owns (merged grammar : Grammar) (offset : Nat) (id : NonTerminalId) : Prop where
  rules : ∀ rule ∈ merged.rules, rule.lhs = id + offset → ∃ rule' ∈ grammar.rules, rule = shiftRule offset rule'

variable {offset : Nat} {symbols : List Symbol}

/-- A derivation of a grammar is a derivation of the merged grammar. -/
theorem derives_shift (copied : ∀ rule ∈ grammar.rules, shiftRule offset rule ∈ merged.rules)
    (derives : Grammar.Derives grammar symbols word) :
    Grammar.Derives merged (symbols.map (shiftSymbol offset)) word := by
  induction derives with
  | nil => exact .nil
  | terminal _ ih => exact .terminal ih
  | @nonTerminal rule rest _ _ member _ _ ih ih' =>
      exact @Grammar.Derives.nonTerminal merged (shiftRule offset rule) (rest.map (shiftSymbol offset)) _ _
        (copied rule member) ih ih'

/-- A derivation of the merged grammar from owned identifiers stays in the grammar of the tool. -/
theorem derives_unshift (owned : ∀ id ∈ ruleIds grammar, Owns merged grammar offset id) {symbols' : List Symbol}
    (derives : Grammar.Derives merged symbols' word) (here : symbols' = symbols.map (shiftSymbol offset))
    (inside : ∀ id, .nonTerminal id ∈ symbols → Owns merged grammar offset id) :
    Grammar.Derives grammar symbols word := by
  induction derives generalizing symbols with
  | nil =>
      rw [List.map_eq_nil_iff.mp here.symm]
      exact .nil
  | terminal _ ih =>
      obtain ⟨symbol, rest, rfl, first, later⟩ := List.map_eq_cons_iff.mp here.symm
      cases symbol with
      | nonTerminal _ => cases first
      | terminal _ =>
          cases first
          exact .terminal (ih later.symm fun id member => inside id (List.mem_cons_of_mem _ member))
  | nonTerminal member _ _ ih ih' =>
      obtain ⟨symbol, rest, rfl, first, later⟩ := List.map_eq_cons_iff.mp here.symm
      cases symbol with
      | terminal _ => cases first
      | nonTerminal id =>
          obtain ⟨rule, known, rfl⟩ := (inside id List.mem_cons_self).rules _ member (Symbol.nonTerminal.inj first).symm
          have same : id = rule.lhs := Nat.add_right_cancel (Symbol.nonTerminal.inj first)
          subst same
          exact .nonTerminal known
            (ih rfl fun id inner => owned id (mem_ruleIds.mpr ⟨rule, known, Or.inr inner⟩))
            (ih' later.symm fun id inner => inside id (List.mem_cons_of_mem _ inner))

/-- The text of a call of a tool around the bytes of its arguments. -/
def callBytes (name : List Char) (args : List UInt8) : List UInt8 :=
  Utf8.encode (callPrefix name) ++ (args ++ Utf8.encode callSuffix)

section Merged

variable {tools : List ToolDefinition} {grammars : List Grammar}

theorem mergeToolGrammars_rules : (mergeToolGrammars tools grammars).rules =
    (placed 1 (tools.zip grammars)).flatMap PlacedTool.rules ∧ (mergeToolGrammars tools grammars).start = 0 := by
  obtain ⟨rules, start⟩ := @mergeLoop_rules ((Grammar.new 0).allocNt "tool_call_root").2 (tools.zip grammars) 0 1
  exact ⟨rules, start⟩

theorem mem_placed {place : PlacedTool} {nextNt : Nat} (member : place ∈ placed nextNt list) :
    (place.tool, place.grammar) ∈ list := by
  induction list generalizing nextNt with
  | nil => cases member
  | cons first rest ih =>
      obtain ⟨tool, argGrammar⟩ := first
      rcases List.mem_cons.mp member with rfl | member
      · exact List.mem_cons_self
      · exact List.mem_cons_of_mem _ (ih member)

theorem exists_placed {tool : ToolDefinition} (nextNt : Nat) (member : (tool, grammar) ∈ list) :
    ∃ offset, ⟨offset, tool, grammar⟩ ∈ placed nextNt list := by
  induction list generalizing nextNt with
  | nil => cases member
  | cons first rest ih =>
      obtain ⟨tool', argGrammar⟩ := first
      rcases List.mem_cons.mp member with same | member
      · cases same
        exact ⟨_, List.mem_cons_self⟩
      · obtain ⟨offset, inside⟩ := ih (nextNt + argNtCount argGrammar) member
        exact ⟨offset, List.mem_cons_of_mem _ inside⟩

/-- A tool whose identifiers meet no other tool owns them in the merged grammar. -/
theorem owns_of_apart (apart : (placed 1 (tools.zip grammars)).Pairwise PlacedTool.Apart)
    {place : PlacedTool} (member : place ∈ placed 1 (tools.zip grammars)) {id : NonTerminalId}
    (own : id + place.offset ∈ place.ids) :
    Owns (mergeToolGrammars tools grammars) place.grammar place.offset id where
  rules rule inside here := by
    rw [mergeToolGrammars_rules.1, List.mem_flatMap] at inside
    obtain ⟨place', member', inside⟩ := inside
    have positive := (placed_sorted 1).1 place member
    rcases List.mem_append.mp inside with copied | root
    · obtain ⟨rule', known, rfl⟩ := List.mem_map.mp copied
      have other : id + place.offset ∈ place'.ids := by
        rw [← here]
        exact List.mem_map_of_mem (List.mem_cons_of_mem _ (mem_ruleIds.mpr ⟨rule', known, Or.inl rfl⟩))
      by_cases same : place = place'
      · subst same
        exact ⟨rule', known, rfl⟩
      · exact absurd other (apart.forall member member' same _ own)
    · rw [List.mem_singleton.mp root] at here
      exact absurd here (place_positive positive)

/-- The merged grammar derives the calls of its tools when no identifiers meet. -/
theorem generates_merged (apart : (placed 1 (tools.zip grammars)).Pairwise PlacedTool.Apart) :
    Grammar.Generates (mergeToolGrammars tools grammars) word ↔
      ∃ entry ∈ tools.zip grammars, ∃ args, Grammar.Generates entry.2 args ∧ word = callBytes entry.1.name args := by
  obtain ⟨rules, start⟩ := @mergeToolGrammars_rules tools grammars
  rw [Grammar.Generates, start, Grammar.derives_nonTerminal]
  constructor
  · rintro ⟨rule, member, zero, derives⟩
    rw [rules, List.mem_flatMap] at member
    obtain ⟨place, member, inside⟩ := member
    rcases List.mem_append.mp inside with copied | root
    · obtain ⟨rule', _, rfl⟩ := List.mem_map.mp copied
      have positive := (placed_sorted 1).1 place member
      exact absurd zero.symm (place_positive positive)
    · rw [List.mem_singleton.mp root] at derives
      obtain ⟨tail, rfl, body⟩ := Grammar.derives_terminal_cons.mp derives
      obtain ⟨args, last, rfl, inner, ending⟩ := Grammar.derives_nonTerminal_cons.mp body
      obtain ⟨rest, rfl, nothing⟩ := Grammar.derives_terminal_cons.mp ending
      cases nothing
      rw [List.append_nil]
      have owned (id : NonTerminalId) (own : id ∈ place.grammar.start :: ruleIds place.grammar) :=
        owns_of_apart apart member (List.mem_map_of_mem own)
      refine ⟨_, mem_placed member, args, derives_unshift (fun id own => owned id (List.mem_cons_of_mem _ own)) inner
        rfl fun id here => ?_, rfl⟩
      rw [Symbol.nonTerminal.inj (List.mem_singleton.mp here)]
      exact owned _ List.mem_cons_self
  · rintro ⟨⟨tool, grammar⟩, member, args, derives, rfl⟩
    obtain ⟨offset, member⟩ := exists_placed 1 member
    have inside : ∀ rule ∈ PlacedTool.rules ⟨offset, tool, grammar⟩, rule ∈ (mergeToolGrammars tools grammars).rules := by
      intro rule known
      rw [rules]
      exact List.mem_flatMap.mpr ⟨_, member, known⟩
    refine ⟨rootRule tool (grammar.start + offset), inside _ (List.mem_append_right _ List.mem_cons_self), rfl, ?_⟩
    have shifted := @derives_shift grammar (mergeToolGrammars tools grammars) args offset _
      (fun rule known => inside _ (List.mem_append_left _ (List.mem_map_of_mem known))) derives
    exact .terminal (shifted.append (.bytes _))

end Merged

end Pictor.Tools

namespace Pictor.Tools

section Constraint

variable (order : HashOrder (List Char)) (writer : LiteralWriter)

/-- The tools with the grammars of their parameters. -/
def compiledTools (tools : List ToolDefinition) : List (ToolDefinition × Grammar) :=
  tools.filterMap fun tool =>
    match compileJsonSchema order writer tool.parameters with
    | .error _ => none
    | .ok grammar => some (tool, grammar)

/-- The generator and the parser of tool calls agree. -/
structure ToolCallsAgree (serde : SerdeJson) (callId : List Char) (tools : List ToolDefinition)
    (merged : Grammar) : Prop where
  apart : (placed 1 (compiledTools order writer tools)).Pairwise PlacedTool.Apart
  exact : ∀ word, Grammar.Generates merged word ↔ ∃ entry ∈ compiledTools order writer tools, ∃ args,
    Grammar.Generates entry.2 args ∧ word = callBytes entry.1.name args
  selected : ∀ entry ∈ compiledTools order writer tools, ∀ args, Grammar.Generates entry.2 args →
    ∃ output arguments call value, Utf8.decode (callBytes entry.1.name args) = some output ∧
      Utf8.decode args = some arguments ∧ selectTool serde callId output tools = .ok call ∧
      call.name = entry.1.name ∧ serde.fromStr call.arguments = .ok value ∧ serde.fromStr arguments = .ok value

/-- The starts of the grammars meet no later tool, and every call of a tool is safe. -/
structure ToolCallsSafe (serde : SerdeJson) (tools : List ToolDefinition) : Prop where
  apart : (placed 1 (compiledTools order writer tools)).Pairwise fun first second =>
    first.grammar.start + first.offset ∉ second.ids
  safe : ∀ entry ∈ compiledTools order writer tools, ∀ args, Grammar.Generates entry.2 args →
    ∃ arguments, args = Utf8.encode arguments ∧ CallSafe serde entry.1.name arguments

end Constraint

variable {order : HashOrder (List Char)} {writer : LiteralWriter} {serde : SerdeJson} {callId name : List Char}
  {tools : List ToolDefinition} {grammars : List Grammar} {args : List UInt8}

theorem zip_compiled (compiled : argsGrammars order writer tools = .ok grammars) :
    tools.zip grammars = compiledTools order writer tools := by
  induction tools generalizing grammars with
  | nil => rfl
  | cons tool tools ih =>
      rw [argsGrammars, List.mapM_cons] at compiled
      rw [compiledTools, List.filterMap_cons]
      cases result : compileJsonSchema order writer tool.parameters with
      | error reason =>
          rw [result] at compiled
          cases compiled
      | ok grammar =>
          rw [result] at compiled
          cases later : argsGrammars order writer tools with
          | error reason =>
              rw [argsGrammars] at later
              simp [later] at compiled
              cases compiled
          | ok grammars' =>
              have rest := ih later
              rw [argsGrammars] at later
              simp [later] at compiled
              cases compiled
              rw [List.zip_cons_cons, rest]
              rfl

theorem pairwise_starts (nextNt : Nat) (list : List (ToolDefinition × Grammar)) :
    (placed nextNt list).Pairwise PlacedTool.Apart ↔ (placed nextNt list).Pairwise fun first second =>
      first.grammar.start + first.offset ∉ second.ids := by
  have sorted := (@placed_sorted list nextNt).2
  constructor
  · intro apart
    exact (apart.and sorted).imp fun both => (ids_apart both.2).mp both.1
  · intro starts
    exact (starts.and sorted).imp fun both => (ids_apart both.2).mpr both.1

theorem callBytes_encode (name arguments : List Char) :
    callBytes name (Utf8.encode arguments) = Utf8.encode (callText name arguments) := by
  rw [callBytes, callText, Utf8.encode_append, Utf8.encode_append]

/-- The bytes of a call are selected exactly when their text is safe. -/
theorem selected_iff (known : name ∈ tools.map ToolDefinition.name) :
    (∃ output arguments call value, Utf8.decode (callBytes name args) = some output ∧
      Utf8.decode args = some arguments ∧ selectTool serde callId output tools = .ok call ∧
      call.name = name ∧ serde.fromStr call.arguments = .ok value ∧ serde.fromStr arguments = .ok value) ↔
    ∃ arguments, args = Utf8.encode arguments ∧ CallSafe serde name arguments := by
  constructor
  · rintro ⟨output, arguments, call, value, whole, part, selected, named, written, read⟩
    have same := Utf8.decode_eq_some.mp part
    rw [← same, callBytes_encode, Utf8.decode_encode] at whole
    cases whole
    exact ⟨arguments, same.symm, (accepted_iff known).mp ⟨call, value, selected, named, written, read⟩⟩
  · rintro ⟨arguments, rfl, safe⟩
    obtain ⟨call, value, selected, named, written, read⟩ := (@accepted_iff serde callId _ _ _ known).mpr safe
    refine ⟨_, arguments, call, value, ?_, Utf8.decode_encode _, selected, named, written, read⟩
    rw [callBytes_encode, Utf8.decode_encode]

theorem known_of_compiled {entry : ToolDefinition × Grammar} (member : entry ∈ compiledTools order writer tools) :
    entry.1.name ∈ tools.map ToolDefinition.name := by
  obtain ⟨tool, inside, same⟩ := List.mem_filterMap.mp member
  split at same
  · cases same
  · cases same
    exact List.mem_map_of_mem inside

/-- The merged grammar and the parser agree exactly when the identifiers stay apart and the calls are safe. -/
theorem tool_calls_agree (order : HashOrder (List Char)) (writer : LiteralWriter) (serde : SerdeJson)
    (callId : List Char) (tools : List ToolDefinition) (merged : Grammar)
    (built : buildToolConstraint order writer tools = .ok merged) :
    ToolCallsAgree order writer serde callId tools merged ↔ ToolCallsSafe order writer serde tools := by
  have language : (placed 1 (compiledTools order writer tools)).Pairwise PlacedTool.Apart →
      ∀ word, Grammar.Generates merged word ↔ ∃ entry ∈ compiledTools order writer tools, ∃ args,
        Grammar.Generates entry.2 args ∧ word = callBytes entry.1.name args := by
    intro apart word
    rw [buildToolConstraint] at built
    by_cases empty : tools = []
    · rw [if_pos empty] at built
      cases built
    · rw [if_neg empty] at built
      cases compiled : argsGrammars order writer tools with
      | error reason =>
          rw [compiled] at built
          cases built
      | ok grammars =>
          rw [compiled] at built
          cases built
          rw [← zip_compiled compiled] at apart ⊢
          exact generates_merged apart
  constructor
  · intro agree
    exact ⟨(pairwise_starts 1 _).mp agree.apart, fun entry member args derives =>
      (selected_iff (known_of_compiled member)).mp (agree.selected entry member args derives)⟩
  · intro safe
    have apart := (pairwise_starts 1 _).mpr safe.apart
    exact ⟨apart, language apart, fun entry member args derives =>
      (selected_iff (known_of_compiled member)).mpr (safe.safe entry member args derives)⟩

section Sample

/-- A tool whose arguments are always null. -/
def nullTool (name : List Char) : ToolDefinition := ⟨name, .object [("type".toList, .string "null".toList)]⟩

def nullGrammar : Grammar := ⟨[⟨0, [.terminal (Utf8.encode "null".toList)]⟩], 0, [(0, "__null")], 1⟩

theorem compile_nullTool (name : List Char) :
    compileJsonSchema order writer (nullTool name).parameters = .ok nullGrammar := by
  have first : Compiler.pass1AllocDefs (nullTool name).parameters Compiler.new = .ok ((), Compiler.new) := rfl
  have nothing : order.iterate 0 ((Compiler.new.defsNt.map Prod.fst).toFinset) = [] := HashOrder.iterate_empty order 0
  simp only [compileJsonSchema, Compiler.compile, bind, StateT.bind, Except.bind, first, get, getThe,
    MonadStateOf.get, StateT.get, pure, Except.pure, nothing]
  rfl

theorem build_nullTool (name : List Char) :
    buildToolConstraint order writer [nullTool name] = .ok (mergeToolGrammars [nullTool name] [nullGrammar]) := by
  have compiled : argsGrammars order writer [nullTool name] = .ok [nullGrammar] := by
    rw [argsGrammars, List.mapM_cons, compile_nullTool]
    rfl
  rw [buildToolConstraint, if_neg (List.cons_ne_nil _ _), compiled]
  rfl

/-- The reader that takes exactly the texts that denote a value. -/
noncomputable def readerOf (number : List Char → SerdeNumber → Prop) (numbers : NumberTokens number)
    (toString : Value → List Char) : SerdeJson where
  number := number
  numbers := numbers
  fromStr text :=
    haveI := Classical.propDecidable
    if known : ∃ value, JsonReads number readDepth (.entry false) text [] [([], value)] then .ok known.choose
    else .error []
  toString := toString
  fromStr_iff text value := by
    by_cases known : ∃ value, JsonReads number readDepth (.entry false) text [] [([], value)]
    · rw [dif_pos known]
      constructor
      · intro same
        cases same
        exact known.choose_spec
      · intro reads
        have ends : EndsAt (.entry false) [] := fun c first => by cases first
        have same := (reads.unique numbers known.choose_spec ends ends).2
        rw [(Prod.mk.inj (List.cons.inj same).1).2]
    · rw [dif_neg known]
      constructor
      · intro same
        cases same
      · intro reads
        exact absurd ⟨value, reads⟩ known

/-- A reader without numbers. -/
noncomputable def plainSerde : SerdeJson :=
  readerOf (fun _ _ => False) ⟨fun _ _ known => known.elim, fun _ _ _ known => known.elim⟩ fun _ => "null".toList

def serdeWriter : LiteralWriter := ⟨escapeText, escapeText_denotes⟩

theorem tool_calls_agree_null : ∃ merged,
    buildToolConstraint HashOrder.listed serdeWriter [nullTool ['a']] = .ok merged ∧
      (ToolCallsAgree HashOrder.listed serdeWriter plainSerde [] [nullTool ['a']] merged ↔
        ToolCallsSafe HashOrder.listed serdeWriter plainSerde [nullTool ['a']]) :=
  ⟨_, build_nullTool ['a'], tool_calls_agree _ _ _ _ _ _ (build_nullTool ['a'])⟩

/-- A tool whose name holds a quote writes calls that are never selected. -/
theorem quoted_name_disagrees : ∃ merged,
    buildToolConstraint HashOrder.listed serdeWriter [nullTool ['a', '"', 'b']] = .ok merged ∧
      ¬ToolCallsAgree HashOrder.listed serdeWriter plainSerde [] [nullTool ['a', '"', 'b']] merged := by
  refine ⟨_, build_nullTool _, fun agree => ?_⟩
  have listed : (nullTool ['a', '"', 'b'], nullGrammar) ∈
      compiledTools HashOrder.listed serdeWriter [nullTool ['a', '"', 'b']] := by
    rw [compiledTools, List.filterMap_cons, compile_nullTool]
    exact List.mem_cons_self
  have derives : Grammar.Generates nullGrammar (Utf8.encode "null".toList) :=
    @Grammar.Derives.rule nullGrammar ⟨0, _⟩ _ List.mem_cons_self (.bytes _)
  obtain ⟨arguments, _, safe⟩ := (selected_iff (known_of_compiled listed)).mp (agree.selected _ listed _ derives)
  exact absurd safe.plain (by decide)

end Sample

end Pictor.Tools
