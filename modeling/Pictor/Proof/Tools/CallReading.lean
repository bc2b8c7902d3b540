import Pictor.Construction.Tools.ToolCalling
import Pictor.Library.JsonWriting

namespace Pictor.Tools
open List

/-- What follows the name in a tool call. -/
def behindName (arguments : List Char) : List Char := '"' :: ',' :: '"' :: ("arguments".toList ++ '"' :: ':' :: arguments)

variable {serde : SerdeJson} {arguments front rest text body value : List Char} {depth : Nat} {part : JsonPart}
  {members : List (List Char × Value)}

/-- Text without a quote ends in front of the quote that closes the name. -/
theorem quoteless_inside {word : List Char} (apart : '"' ∉ word)
    (same : word ++ rest = front ++ behindName arguments) : ∃ back, rest = back ++ behindName arguments := by
  obtain ⟨middle, rfl, rfl⟩ := append_apart apart same
  exact ⟨middle, rfl⟩

theorem spaces_inside (spaces : Spaces isJsonSpace (front ++ behindName arguments) rest) :
    ∃ back, rest = back ++ behindName arguments := by
  obtain ⟨blank, same, each⟩ := spaces.suffix
  have apart : '"' ∉ blank := fun member => absurd (each _ member) (by decide)
  exact quoteless_inside apart same.symm

/-- A literal ends inside the name, at the end of the name, or in front of the word behind it. -/
theorem string_across (known : JsonString body value) (same : body ++ '"' :: rest = front ++ behindName arguments) :
    (∃ back, front = body ++ '"' :: back ∧ rest = back ++ behindName arguments) ∨
    (front = body ∧ rest = (behindName arguments).tail) ∨ rest = "arguments".toList ++ '"' :: ':' :: arguments := by
  rcases append_eq_append_iff.mp same with ⟨middle, rfl, tail⟩ | ⟨middle, rfl, tail⟩
  · cases middle with
    | nil => exact Or.inr (Or.inl ⟨append_nil body, (List.cons.inj tail).2⟩)
    | cons c middle =>
        obtain ⟨rfl, rfl⟩ := List.cons.inj tail
        exact Or.inl ⟨middle, rfl, rfl⟩
  · rw [behindName] at tail
    rcases middle with _ | ⟨c, _ | ⟨c', _ | ⟨c'', middle⟩⟩⟩
    · exact Or.inr (Or.inl ⟨(append_nil front).symm, (List.cons.inj tail).2.symm⟩)
    · cases (List.cons.inj tail).2
    · simp only [cons_append, nil_append, List.cons.injEq] at tail
      exact Or.inr (Or.inr tail.2.2.2.symm)
    · simp only [cons_append, List.cons.injEq] at tail
      obtain ⟨rfl, rfl, rfl, _⟩ := tail
      obtain ⟨front', wrong⟩ := known.quote (show front ++ '"' :: ',' :: '"' :: middle = (front ++ ['"', ',']) ++ '"' :: middle by simp)
      have last := congrArg List.getLast? wrong
      simp at last

/-- A part that begins in front of the end of the name ends in one of these places. -/
inductive Crossing (serde : SerdeJson) (depth : Nat) (arguments front : List Char) :
    JsonPart → List Char → List (List Char × Value) → Prop
  | inside {part : JsonPart} {members : List (List Char × Value)} (back : List Char) :
      Crossing serde depth arguments front part (back ++ behindName arguments) members
  | closed {part : JsonPart} {members : List (List Char × Value)} :
      Crossing serde depth arguments front part (behindName arguments).tail members
  | stuck {part : JsonPart} {members : List (List Char × Value)} {c : Char} {rest : List Char} :
      c = 'a' ∨ c = ':' → Crossing serde depth arguments front part (c :: rest) members
  | finished {part : JsonPart} {members : List (List Char × Value)} : Crossing serde depth arguments front part [] members
  | reached {fresh : Bool} {rest key : List Char} {value : Value} {earlier : List (List Char × Value)} :
      (∀ key text, (key, .string text) ∈ earlier → text.length < front.length) →
      JsonReads serde.number depth (.entry false) arguments rest [(key, value)] →
      Crossing serde depth arguments front (.series true fresh) rest (earlier ++ [("arguments".toList, value)])

/-- Only a series of members reaches the arguments. -/
theorem Crossing.elsewhere {front' : List Char} {part' : JsonPart} {members' : List (List Char × Value)}
    (crossing : Crossing serde depth arguments front part rest members)
    (other : ∀ fresh, part ≠ .series true fresh) : Crossing serde depth arguments front' part' rest members' := by
  cases crossing with
  | inside back => exact .inside back
  | closed => exact .closed
  | stuck known => exact .stuck known
  | finished => exact .finished
  | reached _ _ => exact absurd rfl (other _)

/-- The places behind a value are also the places behind the spaces that follow it. -/
theorem Crossing.spaces {before after front' : List Char}
    (crossing : Crossing serde depth arguments front .value before members) (spaces : Spaces isJsonSpace before after) :
    Crossing serde depth arguments front' (.entry false) after members := by
  cases crossing with
  | inside back =>
      obtain ⟨back', rfl⟩ := spaces_inside spaces
      exact .inside back'
  | closed =>
      rw [Spaces.solid spaces (by decide)]
      exact .closed
  | stuck known =>
      have solid : after = _ := Spaces.solid spaces (by rcases known with rfl | rfl <;> decide)
      rw [solid]
      exact .stuck known
  | finished =>
      cases spaces
      exact .finished

variable {known : Value} {depth' : Nat}

/-- The arguments end at the brace behind them. -/
theorem arguments_end (closes : JsonReads serde.number depth' (.entry false) arguments ['}'] [([], known)])
    (reads : JsonReads serde.number depth (.entry false) arguments rest members)
    (ends : EndsAt (.entry false) rest) : rest = ['}'] ∧ members = [([], known)] := by
  have brace : EndsAt (.entry false) ['}'] := by
    intro c first
    rw [← Option.some.inj first]
    decide
  exact reads.unique serde.numbers closes ends brace

/-- The series goes on behind the name with the key of the arguments. -/
theorem series_behind {keyed : Bool}
    (closes : JsonReads serde.number depth' (.entry false) arguments ['}'] [([], known)])
    (reads : JsonReads serde.number depth (.series keyed false)
      ('"' :: ("arguments".toList ++ '"' :: ':' :: arguments)) rest members) (earlier : List (List Char × Value))
    (fits : ∀ key text, (key, .string text) ∈ earlier → text.length < front.length) (fresh : Bool) :
    Crossing serde depth arguments front (.series keyed fresh) rest (earlier ++ members) := by
  have key : JsonString "arguments".toList "arguments".toList := PlainText.denotes (by decide)
  have single {text rest : List Char} {members : List (List Char × Value)}
      (entry : JsonReads serde.number depth (.entry false) text rest members)
      (here : text = '"' :: ("arguments".toList ++ '"' :: ':' :: arguments)) : rest = ':' :: arguments := by
    cases entry with
    | element before value after =>
        rw [here] at before
        rw [Spaces.solid before (by decide)] at value
        obtain ⟨body, text, known, same, _⟩ := value.of_quote serde.numbers
        obtain ⟨_, _, rfl⟩ := key.unique known same
        exact Spaces.solid after (by decide)
  have pair {text rest : List Char} {members : List (List Char × Value)}
      (entry : JsonReads serde.number depth (.entry true) text rest members)
      (here : text = '"' :: ("arguments".toList ++ '"' :: ':' :: arguments)) :
      ∃ key value, members = [("arguments".toList, value)] ∧
        JsonReads serde.number depth (.entry false) arguments rest [(key, value)] := by
    cases entry with
    | pair before known colon value =>
        rw [here] at before
        have same := Spaces.solid before (by decide)
        obtain ⟨_, rfl, rfl⟩ := key.unique known (List.cons.inj same).2.symm
        have here := Spaces.solid colon (by decide)
        rw [(List.cons.inj here).2] at value
        exact ⟨_, _, rfl, value⟩
  cases reads with
  | last _ entry =>
      cases keyed with
      | false =>
          rw [single entry rfl]
          exact .stuck (Or.inr rfl)
      | true =>
          obtain ⟨_, _, rfl, value⟩ := pair entry rfl
          exact .reached fits value
  | more _ entry _ =>
      cases keyed with
      | false => cases single entry rfl
      | true =>
          obtain ⟨_, _, _, value⟩ := pair entry rfl
          cases (arguments_end closes value (endsAt_comma _)).1

theorem Crossing.behind {front' : List Char} {keyed fresh : Bool} {earlier : List (List Char × Value)}
    (crossing : Crossing serde depth arguments front (.series keyed false) rest members)
    (fits : ∀ key text, (key, .string text) ∈ earlier → text.length < front'.length)
    (shorter : front.length ≤ front'.length) :
    Crossing serde depth arguments front' (.series keyed fresh) rest (earlier ++ members) := by
  cases crossing with
  | inside back => exact .inside back
  | closed => exact .closed
  | stuck known => exact .stuck known
  | finished => exact .finished
  | reached fits' value =>
      rw [← append_assoc]
      apply Crossing.reached _ value
      intro key text member
      rcases mem_append.mp member with first | second
      · exact fits key text first
      · exact (fits' key text second).trans_le shorter

/-- A bracket behind a part lies in front of the end of the name or behind the arguments. -/
theorem Crossing.bracket {c : Char} (crossing : Crossing serde depth arguments front part (c :: rest) members)
    (bracket : c = ']' ∨ c = '}') : (∃ back, rest = back ++ behindName arguments) ∨
    ∃ fresh earlier key value, part = .series true fresh ∧ members = earlier ++ [("arguments".toList, value)] ∧
      (∀ key text, (key, .string text) ∈ earlier → text.length < front.length) ∧
      JsonReads serde.number depth (.entry false) arguments (c :: rest) [(key, value)] := by
  generalize place : c :: rest = place at crossing
  cases crossing with
  | inside back =>
      cases back with
      | nil =>
          obtain ⟨rfl, _⟩ := List.cons.inj place
          exact absurd bracket (by decide)
      | cons c' back => exact Or.inl ⟨back, (List.cons.inj place).2⟩
  | closed =>
      obtain ⟨rfl, _⟩ := List.cons.inj place
      exact absurd bracket (by decide)
  | stuck known =>
      obtain ⟨rfl, _⟩ := List.cons.inj place
      rcases known with rfl | rfl <;> exact absurd bracket (by decide)
  | finished => cases place
  | reached fits value =>
      subst place
      exact Or.inr ⟨_, _, _, _, rfl, rfl, fits, value⟩

theorem Crossing.comma {keyed : Bool}
    (crossing : Crossing serde depth arguments front (.entry keyed) (',' :: rest) members) :
    (∃ back, rest = back ++ behindName arguments) ∨ rest = '"' :: ("arguments".toList ++ '"' :: ':' :: arguments) := by
  generalize place : ',' :: rest = place at crossing
  cases crossing with
  | inside back =>
      cases back with
      | nil => cases place
      | cons c' back => exact Or.inl ⟨back, (List.cons.inj place).2⟩
  | closed => exact Or.inr (List.cons.inj place).2
  | stuck known =>
      obtain ⟨rfl, _⟩ := List.cons.inj place
      exact absurd known (by decide)
  | finished => cases place

/-- The quote that closes the name opens no literal that a part goes on from. -/
theorem string_opened (known : JsonString body value) (same : '"' :: (body ++ '"' :: rest) = behindName arguments) :
    rest = "arguments".toList ++ '"' :: ':' :: arguments := by
  rw [behindName] at same
  rcases body with _ | ⟨c, _ | ⟨c', body⟩⟩
  · cases (List.cons.inj (List.cons.inj same).2).1
  · simp only [cons_append, nil_append, List.cons.injEq] at same
    exact same.2.2.2
  · simp only [cons_append, List.cons.injEq] at same
    obtain ⟨_, rfl, rfl, _⟩ := same
    obtain ⟨front, wrong⟩ := known.quote (show ',' :: '"' :: body = [','] ++ '"' :: body from rfl)
    cases front with
    | nil => cases wrong
    | cons c front => exact absurd (List.cons.inj wrong).2.symm (append_ne_nil_of_right_ne_nil _ (cons_ne_nil _ _))

/-- Every part that begins in front of the end of the name ends in one of the places. -/
theorem reads_across (closes : JsonReads serde.number depth' (.entry false) arguments ['}'] [([], known)])
    (reads : JsonReads serde.number depth part text rest members) (here : text = front ++ behindName arguments) :
    Crossing serde depth arguments front part rest members := by
  induction reads generalizing front with
  | constant _ _ member =>
      obtain ⟨back, rfl⟩ := quoteless_inside (fun quote => by
        simp only [jsonConstants, mem_cons, Prod.mk.injEq, not_mem_nil, or_false] at member
        rcases member with ⟨rfl, _⟩ | ⟨rfl, _⟩ | ⟨rfl, _⟩ <;> exact absurd quote (by decide)) here
      exact .inside back
  | number _ _ token =>
      obtain ⟨back, rfl⟩ := quoteless_inside
        (fun quote => absurd ((serde.numbers.token _ _ token).inNumber _ quote) (by decide)) here
      exact .inside back
  | string _ rest body =>
      cases front with
      | nil =>
          rw [string_opened body here]
          exact .stuck (Or.inl rfl)
      | cons c front =>
          obtain ⟨_, same⟩ := List.cons.inj here
          rcases string_across body same with ⟨back, _, rfl⟩ | ⟨_, rfl⟩ | rfl
          · exact .inside back
          · exact .closed
          · exact .stuck (Or.inl rfl)
  | array _ ih =>
      cases front with
      | nil => cases here
      | cons c front =>
          rcases (ih (List.cons.inj here).2).bracket (Or.inl rfl) with ⟨back, rfl⟩ | ⟨_, _, _, _, wrong, _⟩
          · exact .inside back
          · cases wrong
  | object _ ih =>
      cases front with
      | nil => cases here
      | cons c front =>
          rcases (ih (List.cons.inj here).2).bracket (Or.inr rfl) with ⟨back, rfl⟩ | ⟨_, _, _, _, _, _, _, value⟩
          · exact .inside back
          · -- The brace behind the arguments is the last character, so only the outermost object ends there.
            have final := arguments_end closes value fun c first => Option.some.inj first ▸ by decide
            rw [(List.cons.inj final.1).2]
            exact .finished
  | element before _ after ih =>
      rw [here] at before
      obtain ⟨back, rfl⟩ := spaces_inside before
      exact (ih rfl).spaces after
  | @pair _ _ _ _ middle _ _ _ _ before key colon _ ih =>
      rw [here] at before
      obtain ⟨back, same⟩ := spaces_inside before
      have colon' : ∃ back, ':' :: middle = back ++ behindName arguments := by
        cases back with
        | nil =>
            rw [string_opened key same] at colon
            cases Spaces.solid colon (by decide)
        | cons c back =>
            rcases string_across key (List.cons.inj same).2 with ⟨back', _, rfl⟩ | ⟨_, rfl⟩ | rfl
            · exact spaces_inside colon
            · cases Spaces.solid colon (by decide)
            · cases Spaces.solid colon (by decide)
      obtain ⟨back', same'⟩ := colon'
      cases back' with
      | nil => cases same'
      | cons c back' => exact (ih (List.cons.inj same').2).elsewhere (by intro fresh same; cases same)
  | none spaces =>
      rw [here] at spaces
      obtain ⟨back, rfl⟩ := spaces_inside spaces
      exact .inside back
  | last fresh entry ih => exact (ih here).elsewhere (by intro fresh same; cases same)
  | more fresh entry later ih ih' =>
      have fits (key text : List Char) (member : (key, Json.string text) ∈ _) := entry.string_fits member
      rw [here] at fits
      simp only [length_cons, length_append] at fits
      rcases (ih here).comma with ⟨back, rfl⟩ | rfl
      · have shorter := entry.length_le
        rw [here] at shorter
        simp only [length_cons, length_append] at shorter
        exact (ih' rfl).behind (fun key text member => by
          have bound := fits key text member
          simp only [length_append] at bound
          omega) (by omega)
      · exact series_behind closes later _ (fun key text member => by
          have bound := fits key text member
          simp only [behindName, length_cons, length_append] at bound
          omega) fresh

variable {name : List Char}

/-- The text between the tags of a tool call. -/
def callObject (name arguments : List Char) : List Char :=
  '{' :: '"' :: ("name".toList ++ '"' :: ':' :: '"' :: (name ++ behindName arguments))

/-- The first member has a name that ends at the first quote of the name. -/
theorem first_member (reads : JsonReads serde.number depth (.entry true)
      ('"' :: ("name".toList ++ '"' :: ':' :: '"' :: (name ++ behindName arguments))) rest members) :
    ∃ text, members = [("name".toList, .string text)] ∧
      ((∃ back, rest = back ++ behindName arguments ∧ back.length < name.length ∧ text.length < name.length) ∨
        (rest = (behindName arguments).tail ∧ JsonString name text) ∨ ∃ tail, rest = 'a' :: tail) := by
  have key : JsonString "name".toList "name".toList := PlainText.denotes (by decide)
  cases reads with
  | pair before known colon value =>
      have same := Spaces.solid before (by decide)
      obtain ⟨_, rfl, rfl⟩ := key.unique known (List.cons.inj same).2.symm
      have here := Spaces.solid colon (by decide)
      rw [(List.cons.inj here).2] at value
      cases value with
      | element before value after =>
          rw [Spaces.solid before (by decide)] at value
          obtain ⟨body, text, known, same, single⟩ := value.of_quote serde.numbers
          cases single
          refine ⟨text, rfl, ?_⟩
          have bound := known.length_le
          rcases string_across known same.symm with ⟨back, rfl, rfl⟩ | ⟨rfl, rfl⟩ | rfl
          · obtain ⟨back', rfl⟩ := spaces_inside after
            obtain ⟨blank, parts, _⟩ := after.suffix
            rw [← append_assoc, append_cancel_right_eq] at parts
            rw [parts]
            simp only [length_append, length_cons]
            exact Or.inl ⟨back', rfl, by omega, by omega⟩
          · exact Or.inr (Or.inl ⟨Spaces.solid after (by decide), known⟩)
          · exact Or.inr (Or.inr ⟨_, Spaces.solid after (by decide)⟩)

/-- What a reader finds in the members of a tool call. -/
structure CallMembers (serde : SerdeJson) (depth : Nat) (name arguments : List Char) (known : Value)
    (items : List (List Char × Value)) : Prop where
  inner : JsonReads serde.number depth (.entry false) arguments ['}'] [([], known)]
  arguments : (JsonMap.ofMembers items).lookup "arguments".toList = some known
  plain : (JsonMap.ofMembers items).lookup "name".toList = some (.string name) → PlainText name

theorem callMembers {text : List Char} {value : Value} {earlier : List (List Char × Value)}
    (first : text.length < name.length ∨ JsonString name text)
    (fits : ∀ key text, (key, .string text) ∈ earlier → text.length < name.length)
    (inner : JsonReads serde.number depth (.entry false) arguments ['}'] [([], value)]) :
    CallMembers serde depth name arguments value
      (("name".toList, .string text) :: (earlier ++ [("arguments".toList, value)])) where
  inner := inner
  arguments := by
    rw [← cons_append, JsonMap.ofMembers_concat]
    exact JsonMap.lookup_insert_self
  plain found := by
    rcases mem_cons.mp (JsonMap.mem_of_lookup found) with same | later
    · cases (Prod.mk.inj same).2
      rcases first with shorter | known
      · exact absurd shorter (Nat.lt_irrefl _)
      · exact (known.plainText (Nat.le_refl _)).2
    · rcases mem_append.mp later with member | member
      · exact absurd (fits _ _ member) (Nat.lt_irrefl _)
      · exact absurd (Prod.mk.inj (mem_singleton.mp member)).1 (by decide)

/-- A tool call that is read to its end holds the arguments, and it holds the name only if the name is plain. -/
theorem callObject_reads (closes : JsonReads serde.number depth' (.entry false) arguments ['}'] [([], known)])
    (reads : JsonReads serde.number depth .value (callObject name arguments) rest members)
    (outside : ∀ back, rest ≠ back ++ behindName arguments) :
    rest = [] ∧ ∃ depth₀ items, depth = depth₀ + 1 ∧ members = [([], .object (JsonMap.ofMembers items))] ∧
      CallMembers serde depth₀ name arguments known items := by
  obtain ⟨items, depth₀, series, rfl, rfl⟩ := reads.of_brace serde.numbers
  have behind {front text : List Char} {later : List (List Char × Value)}
      (crossing : Crossing serde depth₀ arguments front (.series true false) ('}' :: rest) later)
      (shorter : front.length ≤ name.length) (first : text.length < name.length ∨ JsonString name text) :
      rest = [] ∧ CallMembers serde depth₀ name arguments known ([("name".toList, .string text)] ++ later) := by
    rcases crossing.bracket (Or.inr rfl) with ⟨back, same⟩ | ⟨_, earlier, key, value, _, rfl, fits, inner⟩
    · exact absurd same (outside back)
    · obtain ⟨place, single⟩ := arguments_end closes inner fun c first => Option.some.inj first ▸ by decide
      cases single
      rw [place] at inner
      exact ⟨(List.cons.inj place).2,
        callMembers first (fun key text member => (fits key text member).trans_le shorter) inner⟩
  have result : rest = [] ∧ CallMembers serde depth₀ name arguments known items := by
    cases series with
    | none spaces => cases Spaces.solid spaces (by decide)
    | last _ entry =>
        obtain ⟨text, rfl, ⟨back, same, _⟩ | ⟨same, _⟩ | ⟨tail, same⟩⟩ := first_member entry
        · cases back with
          | nil => cases same
          | cons c back => exact absurd (List.cons.inj same).2 (outside back)
        · cases same
        · cases same
    | more _ entry later =>
        obtain ⟨text, rfl, ⟨back, same, shorter, first⟩ | ⟨same, first⟩ | ⟨tail, same⟩⟩ := first_member entry
        · cases back with
          | nil => cases same
          | cons c back =>
              obtain ⟨rfl, rfl⟩ := List.cons.inj same
              exact behind (reads_across closes later rfl) (Nat.le_of_lt (Nat.lt_of_succ_lt shorter)) (Or.inl first)
        · cases same
          have crossing := @series_behind serde arguments [] _ _ _ known _ true closes later []
            (fun _ _ member => absurd member not_mem_nil) false
          exact behind crossing (Nat.zero_le _) (Or.inr first)
        · cases same
  exact ⟨result.1, depth₀, items, rfl, rfl, result.2⟩

/-- A plain name and the arguments give a tool call that is read. -/
theorem reads_callObject (plain : PlainText name)
    (inner : JsonReads serde.number depth (.entry false) arguments ['}'] [([], known)]) :
    JsonReads serde.number (depth + 1) (.entry false) (callObject name arguments) []
      [([], .object (JsonMap.ofMembers [("name".toList, .string name), ("arguments".toList, known)]))] := by
  have key {key : List Char} (simple : PlainText key) : JsonString key key := simple.denotes
  have first : JsonReads serde.number depth (.entry true)
      ('"' :: ("name".toList ++ '"' :: ':' :: '"' :: (name ++ behindName arguments))) (behindName arguments).tail
      [("name".toList, .string name)] :=
    .pair (.done _) (key (by decide)) (.done _)
      (.element (.done _) (.string depth _ plain.denotes) (.done _))
  have second : JsonReads serde.number depth (.entry true) ('"' :: ("arguments".toList ++ '"' :: ':' :: arguments)) ['}']
      [("arguments".toList, known)] := .pair (.done _) (key (by decide)) (.done _) inner
  exact .element (.done _) (.object (.more true first (.last false second))) (.done _)

end Pictor.Tools
