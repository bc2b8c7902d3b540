import Mathlib.Computability.Language

namespace Pictor.LabelledGraph

variable {State Letter : Type}

/-- An edge has a letter, or it is silent. -/
abbrev Edges (State Letter : Type) := State → Option Letter → State → Prop

/-- A path reads the letters of its edges. -/
inductive Path (edge : Edges State Letter) : State → List Letter → State → Prop
  | refl (p : State) : Path edge p [] p
  | silent {p q r : State} {word : List Letter} :
      edge p none q → Path edge q word r → Path edge p word r
  | letter {p q r : State} {a : Letter} {word : List Letter} :
      edge p (some a) q → Path edge q word r → Path edge p (a :: word) r

/-- The words on the paths between two states. -/
def between (edge : Edges State Letter) (p q : State) : Language Letter := {word | Path edge p word q}

variable {edge edge' : Edges State Letter} {p q r : State} {word word' : List Letter}

theorem mem_between : word ∈ between edge p q ↔ Path edge p word q := Iff.rfl

theorem Path.trans (first : Path edge p word q) (second : Path edge q word' r) : Path edge p (word ++ word') r := by
  induction first with
  | refl => exact second
  | silent step _ ih => exact .silent step (ih second)
  | letter step _ ih => exact .letter step (ih second)

theorem Path.single (step : edge p none q) : Path edge p [] q := .silent step (.refl q)

/-- A path without letters stays in a region that the silent edges do not leave. -/
theorem Path.inside_silent {region : Set State} (closed : ∀ p q, p ∈ region → edge p none q → q ∈ region)
    (path : Path edge p [] q) (start : p ∈ region) : q ∈ region := by
  generalize none : ([] : List Letter) = word at path
  induction path with
  | refl => exact start
  | silent step _ ih => exact ih (closed _ _ start step) none
  | letter => cases none

/-- A path with a letter has a silent part, the edge of the letter, and a rest. -/
theorem path_cons_iff {a : Letter} : Path edge p (a :: word) r ↔
    ∃ p' q, Path edge p [] p' ∧ edge p' (some a) q ∧ Path edge q word r := by
  constructor
  · intro path
    generalize whole : a :: word = letters at path
    induction path with
    | refl => cases whole
    | silent step _ ih =>
        obtain ⟨p', q, before, read, after⟩ := ih whole
        exact ⟨p', q, .silent step before, read, after⟩
    | letter step path _ =>
        cases whole
        exact ⟨_, _, .refl _, step, path⟩
  · rintro ⟨p', q, before, read, after⟩
    exact before.trans (.letter read after)

/-- A path that starts in a closed region uses only the edges of the region. -/
theorem Path.carry {region : Set State} (closed : ∀ p x q, p ∈ region → edge p x q → q ∈ region)
    (same : ∀ p x q, p ∈ region → edge p x q → edge' p x q) (path : Path edge p word q)
    (start : p ∈ region) : Path edge' p word q := by
  induction path with
  | refl p => exact .refl p
  | silent step _ ih => exact .silent (same _ _ _ start step) (ih (closed _ _ _ start step))
  | letter step _ ih => exact .letter (same _ _ _ start step) (ih (closed _ _ _ start step))

/-- Graphs that agree on a closed region have the same words there. -/
theorem between_agree {region : Set State} (closed : ∀ p x q, p ∈ region → edge p x q → q ∈ region)
    (same : ∀ p x q, p ∈ region → (edge' p x q ↔ edge p x q)) (start : p ∈ region) :
    between edge' p q = between edge p q := by
  apply Language.ext
  intro word
  constructor
  · intro path
    apply Path.carry _ _ path start
    · exact fun p x q inside step => closed p x q inside ((same p x q inside).mp step)
    · exact fun p x q inside => (same p x q inside).mp
  · intro path
    apply Path.carry closed _ path start
    exact fun p x q inside => (same p x q inside).mpr

/-- A family of languages that every edge respects holds the words of all paths to the last state. -/
theorem Path.mem_family (family : State → Set (List Letter)) {last : State} (final : [] ∈ family last)
    (silent : ∀ p q word, edge p none q → word ∈ family q → word ∈ family p)
    (letter : ∀ p a q word, edge p (some a) q → word ∈ family q → a :: word ∈ family p)
    (path : Path edge p word last) : word ∈ family p := by
  induction path with
  | refl => exact final
  | silent step _ ih => exact silent _ _ _ step (ih final)
  | letter step _ ih => exact letter _ _ _ _ step (ih final)

/-- A letter or nothing in front of a word. -/
def extend (x : Option Letter) (word : List Letter) : List Letter := x.toList ++ word

/-- An edge leads to the words of its target. -/
theorem Path.mem_family_extend (family : State → Set (List Letter)) {last : State} (final : [] ∈ family last)
    (step : ∀ p x q word, edge p x q → word ∈ family q → extend x word ∈ family p)
    (path : Path edge p word last) : word ∈ family p :=
  path.mem_family family final (fun p q word => step p none q word) fun p a q word => step p (some a) q word

theorem Path.extend (x : Option Letter) (step : edge p x q) (path : Path edge q word r) :
    Path edge p (LabelledGraph.extend x word) r := by
  cases x with
  | none => exact .silent step path
  | some a => exact .letter step path

/-- Extending the first part of a product extends the product. -/
theorem extend_mem_mul {left left' right : Language Letter} {x : Option Letter}
    (step : ∀ word ∈ left, extend x word ∈ left') (member : word ∈ left * right) : extend x word ∈ left' * right := by
  obtain ⟨first, inLeft, second, inRight, rfl⟩ := Language.mem_mul.mp member
  rw [extend, ← List.append_assoc]
  exact Language.append_mem_mul (step first inLeft) inRight

section Glue

variable {region region' targets : Set State} {start finish start' finish' entry exit goal : State}

/-- The edges that leave a region are silent edges from one state to some targets. -/
structure Leaves (edge edge' : Edges State Letter) (region : Set State) (finish : State)
    (targets : Set State) : Prop where
  closed : ∀ p x q, p ∈ region → edge p x q → q ∈ region
  old : ∀ p x q, p ∈ region → edge p x q → edge' p x q
  only : ∀ p x q, p ∈ region → edge' p x q →
    edge p x q ∨ (p = finish ∧ x = none ∧ q ∈ targets)
  new : ∀ q ∈ targets, edge' finish none q

/-- A state whose edges are exactly the silent edges to some targets. -/
def Hub (edge : Edges State Letter) (p : State) (targets : Set State) : Prop :=
  ∀ x q, edge p x q ↔ x = none ∧ q ∈ targets

/-- The words that lead from some state of a set to the last one. -/
def onward (edge : Edges State Letter) (targets : Set State) (goal : State) : Language Letter :=
  {word | ∃ q ∈ targets, Path edge q word goal}

theorem onward_singleton : onward edge {q} goal = between edge q goal := by
  simp only [onward, Set.mem_singleton_iff, exists_eq_left]
  rfl

theorem onward_pair : onward edge {p, q} goal = between edge p goal + between edge q goal := by
  simp only [onward, Set.mem_insert_iff, Set.mem_singleton_iff, exists_eq_or_imp, exists_eq_left]
  rfl

/-- An edge from a region respects the words to its finish, followed by a language that holds the words
of every target. -/
theorem Leaves.step (leaves : Leaves edge edge' region finish targets)
    (family : State → Set (List Letter)) {rest : Language Letter}
    (here : ∀ q word, q ∈ region → word ∈ family q → word ∈ between edge q finish * rest)
    (after : ∀ q word, q ∈ targets → word ∈ family q → word ∈ rest) {x : Option Letter}
    (inside : p ∈ region) (step : edge' p x q) (member : word ∈ family q) :
    extend x word ∈ between edge p finish * rest := by
  rcases leaves.only p x q inside step with old | ⟨rfl, rfl, target⟩
  · have next := leaves.closed p x q inside old
    apply extend_mem_mul _ (here q word next member)
    exact fun word path => Path.extend x old path
  · have empty : [] ∈ between edge p p := Path.refl p
    exact Language.append_mem_mul empty (after q word target member)

/-- A path out of a region goes to its finish and on from some target. -/
theorem Leaves.words (leaves : Leaves edge edge' region finish targets) (inside : start ∈ region)
    (outside : goal ∉ region) : between edge' start goal = between edge start finish * onward edge' targets goal := by
  ext word
  constructor
  · intro path
    let family : State → Set (List Letter) := fun p =>
      {word | (p ∈ region → word ∈ between edge p finish * onward edge' targets goal) ∧ Path edge' p word goal}
    have member : word ∈ family start := by
      apply path.mem_family_extend family
      · exact ⟨fun wrong => absurd wrong outside, .refl goal⟩
      · intro p x q word step known
        refine ⟨fun here => ?_, Path.extend x step known.2⟩
        exact leaves.step family (fun q word inRegion known => known.1 inRegion)
          (fun q word target known => ⟨q, target, known.2⟩) here step known
    exact member.1 inside
  · intro member
    obtain ⟨left, inLeft, right, ⟨q, target, inRight⟩, rfl⟩ := Language.mem_mul.mp member
    exact (inLeft.carry leaves.closed leaves.old inside).trans (.silent (leaves.new q target) inRight)

theorem Hub.words (hub : Hub edge p targets) (apart : p ≠ goal) : between edge p goal = onward edge targets goal := by
  ext word
  constructor
  · intro path
    cases path with
    | refl => exact absurd rfl apart
    | silent step path => exact ⟨_, ((hub _ _).mp step).2, path⟩
    | letter step _ => cases ((hub _ _).mp step).1
  · rintro ⟨q, target, path⟩
    exact .silent ((hub none q).mpr ⟨rfl, target⟩) path

/-- A state without edges has the empty word to itself. -/
theorem Hub.final (hub : Hub edge goal ∅) : between edge goal goal = 1 := by
  ext word
  rw [Language.mem_one]
  constructor
  · intro path
    cases path with
    | refl => rfl
    | silent step _ => cases ((hub _ _).mp step).2
    | letter step _ => cases ((hub _ _).mp step).2
  · rintro rfl
    exact .refl goal

/-- Two regions in a row have the product of their languages. -/
theorem between_concat (first : Leaves edge edge' region finish {start'})
    (second : Leaves edge edge' region' finish' ∅) (inside : start ∈ region) (inside' : start' ∈ region')
    (apart : ∀ p ∈ region, p ∉ region') (last : finish' ∈ region') :
    between edge' start finish' = between edge start finish * between edge start' finish' := by
  rw [first.words inside fun wrong => apart _ wrong last, onward_singleton, between_agree second.closed _ inside']
  intro p x q here
  refine ⟨fun step => ?_, second.old p x q here⟩
  exact (second.only p x q here step).resolve_right fun wrong => wrong.2.2

variable (entryOutside : entry ∉ region) (exitOutside : exit ∉ region) (different : exit ≠ entry)
  (last : Hub edge' exit ∅) (inside : start ∈ region)
include exitOutside last inside

/-- A region that leads to the exit has its language. -/
theorem between_exit (leaves : Leaves edge edge' region finish {exit}) :
    between edge' start exit = between edge start finish := by
  rw [leaves.words inside exitOutside, onward_singleton, last.final, mul_one]

include entryOutside different

/-- The words behind a region that can be gone through again are its iterations. -/
theorem onward_loop (leaves : Leaves edge edge' region finish targets)
    (turn : targets = {start, exit} ∨ targets = {entry} ∧ Hub edge' entry {start, exit}) :
    onward edge' targets exit = KStar.kstar (between edge start finish) := by
  have unfolded : onward edge' targets exit = between edge start finish * onward edge' targets exit + 1 := by
    have once := leaves.words inside exitOutside
    rw [← once, ← last.final, ← onward_pair]
    rcases turn with rfl | ⟨rfl, hub⟩
    · rfl
    · rw [onward_singleton, hub.words different.symm]
  apply le_antisymm
  · let family : State → Set (List Letter) := fun p =>
      {word | (p ∈ region → word ∈ between edge p finish * KStar.kstar (between edge start finish)) ∧
        (p = entry → targets = {entry} → word ∈ KStar.kstar (between edge start finish)) ∧ (p = exit → word = [])}
    have again : ∀ q word, q ∈ ({start, exit} : Set State) → word ∈ family q →
        word ∈ KStar.kstar (between edge start finish) := by
      rintro q word (rfl | rfl) known
      · rw [← Language.one_add_self_mul_kstar_eq_kstar]
        exact Or.inr (known.1 inside)
      · rw [known.2.2 rfl]
        exact Language.nil_mem_kstar _
    have after : ∀ q word, q ∈ targets → word ∈ family q → word ∈ KStar.kstar (between edge start finish) := by
      rcases turn with rfl | ⟨rfl, _⟩
      · exact again
      · rintro q word rfl known
        exact known.2.1 rfl rfl
    rintro word ⟨q, target, path⟩
    refine after q word target (path.mem_family_extend family ?_ fun p x q word step known => ⟨fun here => ?_, ?_, ?_⟩)
    · exact ⟨fun wrong => absurd wrong exitOutside, fun wrong => absurd wrong different, fun _ => rfl⟩
    · exact leaves.step family (fun q word inRegion known => known.1 inRegion) after here step known
    · rintro rfl single
      rcases turn with pair | ⟨_, hub⟩
      · exact absurd (single ▸ pair ▸ Or.inl rfl : start ∈ ({p} : Set State)) fun same => entryOutside (same ▸ inside)
      · obtain ⟨rfl, target⟩ := (hub x q).mp step
        exact again q word target known
    · rintro rfl
      exact absurd ((last x q).mp step).2 (Set.notMem_empty q)
  · have all := unfolded.ge
    exact kstar_le_of_mul_le_right (fun word member => all (Or.inr member)) fun word member => all (Or.inl member)

/-- A region with a loop back to its start has the iteration of its language. -/
theorem between_star (leaves : Leaves edge edge' region finish {start, exit})
    (first : Hub edge' entry {start, exit}) : between edge' entry exit = KStar.kstar (between edge start finish) := by
  rw [first.words different.symm]
  exact onward_loop entryOutside exitOutside different last inside leaves (Or.inl rfl)

/-- A region behind a loop state has the language of one or more rounds. -/
theorem between_plus (leaves : Leaves edge edge' region finish {entry}) (loop : Hub edge' entry {start, exit}) :
    between edge' start exit = between edge start finish * KStar.kstar (between edge start finish) := by
  rw [leaves.words inside exitOutside]
  exact congrArg _ (onward_loop entryOutside exitOutside different last inside leaves (Or.inr ⟨rfl, loop⟩))

omit entryOutside

/-- A region that can be skipped has its language and the empty word. -/
theorem between_optional (leaves : Leaves edge edge' region finish {exit}) (first : Hub edge' entry {start, exit}) :
    between edge' entry exit = between edge start finish + 1 := by
  rw [first.words different.symm, onward_pair, last.final, between_exit exitOutside last inside leaves]

/-- Two regions side by side have the union of their languages. -/
theorem between_alternation (leaves : Leaves edge edge' region finish {exit})
    (leaves' : Leaves edge edge' region' finish' {exit}) (exitOutside' : exit ∉ region') (inside' : start' ∈ region')
    (first : Hub edge' entry {start, start'}) :
    between edge' entry exit = between edge start finish + between edge start' finish' := by
  rw [first.words different.symm, onward_pair, between_exit exitOutside last inside leaves,
    between_exit exitOutside' last inside' leaves']

end Glue

end Pictor.LabelledGraph

namespace Pictor.OpenGraph
open List

variable {State Letter : Type}

/-- A slot of a state has a letter, or it is silent. It leads to a state, or it dangles. -/
abbrev Slots (State Letter : Type) := State → Option Letter → Option State → Prop

/-- A word leads from a state to a dangling slot. -/
inductive Escapes (slots : Slots State Letter) : State → List Letter → Prop
  | out {p : State} {x : Option Letter} : slots p x none → Escapes slots p x.toList
  | step {p q : State} {x : Option Letter} {word : List Letter} :
      slots p x (some q) → Escapes slots q word → Escapes slots p (x.toList ++ word)

/-- The words that lead from a state to a dangling slot. -/
def exits (slots : Slots State Letter) (p : State) : Language Letter := {word | Escapes slots p word}

variable {slots slots' : Slots State Letter} {region : Set State} {p q start target : State} {word rest : List Letter}

/-- The first slot of a word dangles, or it leads to the state of the rest. -/
theorem mem_exits_iff : word ∈ exits slots p ↔ (∃ x, slots p x none ∧ word = x.toList) ∨
    ∃ x q rest, slots p x (some q) ∧ rest ∈ exits slots q ∧ word = x.toList ++ rest := by
  constructor
  · intro escapes
    cases escapes with
    | out slot => exact Or.inl ⟨_, slot, rfl⟩
    | step slot later => exact Or.inr ⟨_, _, _, slot, later, rfl⟩
  · rintro (⟨x, slot, rfl⟩ | ⟨x, q, rest, slot, later, rfl⟩)
    · exact Escapes.out slot
    · exact Escapes.step slot later

/-- No slot of the region leads out of it. -/
def Closed (slots : Slots State Letter) (region : Set State) : Prop :=
  ∀ p x q, p ∈ region → slots p x (some q) → q ∈ region

theorem Escapes.carry (closed : Closed slots region) (same : ∀ p x next, p ∈ region → slots p x next → slots' p x next)
    (escapes : Escapes slots p word) (inside : p ∈ region) : Escapes slots' p word := by
  induction escapes with
  | out slot => exact .out (same _ _ _ inside slot)
  | step slot _ ih => exact .step (same _ _ _ inside slot) (ih (closed _ _ _ inside slot))

/-- Graphs with the same slots in a closed region have the same words there. -/
theorem exits_agree (closed : Closed slots region)
    (same : ∀ p x next, p ∈ region → (slots' p x next ↔ slots p x next)) (inside : p ∈ region) :
    exits slots' p = exits slots p := by
  have closed' : Closed slots' region := fun p x q here slot => closed p x q here ((same p x _ here).mp slot)
  ext word
  constructor
  · intro escapes
    exact escapes.carry closed' (fun p x next here => (same p x next here).mp) inside
  · intro escapes
    exact escapes.carry closed (fun p x next here => (same p x next here).mpr) inside

/-- The dangling slots of a region now lead to a target. -/
structure Plugged (slots slots' : Slots State Letter) (region : Set State) (target : State) : Prop where
  closed : Closed slots region
  leads : ∀ p x q, p ∈ region → (slots' p x (some q) ↔ slots p x (some q) ∨ (q = target ∧ slots p x none))
  tight : ∀ p x, p ∈ region → ¬ slots' p x none

variable (plugged : Plugged slots slots' region target)
include plugged

theorem Plugged.append (escapes : Escapes slots p word) (inside : p ∈ region) (later : Escapes slots' target rest) :
    Escapes slots' p (word ++ rest) := by
  induction escapes with
  | out slot => exact .step ((plugged.leads _ _ _ inside).mpr (Or.inr ⟨rfl, slot⟩)) later
  | step slot _ ih =>
      rw [append_assoc]
      apply Escapes.step ((plugged.leads _ _ _ inside).mpr (Or.inl slot))
      exact ih (plugged.closed _ _ _ inside slot)

/-- A word of a plugged region has a part that leads to the target. -/
theorem Plugged.split (escapes : Escapes slots' p word) (inside : p ∈ region) :
    word ∈ exits slots p * exits slots' target := by
  induction escapes with
  | out slot => exact absurd slot (plugged.tight _ _ inside)
  | @step p q x word slot later ih =>
      rcases (plugged.leads _ _ _ inside).mp slot with within | ⟨rfl, dangling⟩
      · obtain ⟨first, escapes, second, member, rfl⟩ := Language.mem_mul.mp (ih (plugged.closed _ _ _ inside within))
        rw [← append_assoc]
        exact Language.append_mem_mul (Escapes.step within escapes) member
      · exact Language.append_mem_mul (Escapes.out dangling) later

/-- The words of a plugged region go on with the words of the target. -/
theorem Plugged.exits_eq (inside : p ∈ region) : exits slots' p = exits slots p * exits slots' target := by
  ext word
  constructor
  · intro escapes
    exact plugged.split escapes inside
  · intro member
    obtain ⟨first, escapes, second, later, rfl⟩ := Language.mem_mul.mp member
    exact plugged.append escapes inside later

omit plugged

/-- The slots of a state that forks are silent. One of them leads to the start, and one dangles. -/
def Forks (slots : Slots State Letter) (fork start : State) : Prop :=
  ∀ x next, slots fork x next ↔ x = none ∧ (next = some start ∨ next = none)

/-- A fork in front of a region makes the region optional. -/
theorem Forks.optional (forks : Forks slots q start) : exits slots q = exits slots start + 1 := by
  ext word
  rw [Language.mem_add, Language.mem_one, mem_exits_iff]
  constructor
  · rintro (⟨x, slot, rfl⟩ | ⟨x, next, rest, slot, later, rfl⟩)
    · obtain ⟨rfl, _⟩ := (forks _ _).mp slot
      exact Or.inr rfl
    · obtain ⟨rfl, target | wrong⟩ := (forks _ _).mp slot
      · cases target
        exact Or.inl later
      · cases wrong
  · rintro (later | rfl)
    · exact Or.inr ⟨none, start, word, (forks _ _).mpr ⟨rfl, Or.inl rfl⟩, later, rfl⟩
    · exact Or.inl ⟨none, (forks _ _).mpr ⟨rfl, Or.inr rfl⟩, rfl⟩

/-- A region that is plugged into a fork in front of it repeats. -/
theorem Plugged.loop (plugged : Plugged slots slots' region target) (forks : Forks slots' target start)
    (inside : start ∈ region) : exits slots' target = KStar.kstar (exits slots start) := by
  have unfolded : exits slots' target = exits slots start * exits slots' target + 1 := by
    rw [← plugged.exits_eq inside]
    exact forks.optional
  ext word
  constructor
  · -- Each visit of the fork ends the word or starts a new round.
    intro escapes
    have rounds : ∀ p word, Escapes slots' p word →
        (p ∈ region → word ∈ exits slots p * KStar.kstar (exits slots start)) ∧
          (p = target → word ∈ KStar.kstar (exits slots start)) := by
      intro p word escapes
      induction escapes with
      | @out p x slot =>
          constructor
          · exact fun inside => absurd slot (plugged.tight _ _ inside)
          · rintro rfl
            obtain ⟨rfl, _⟩ := (forks _ _).mp slot
            exact Language.nil_mem_kstar _
      | @step p q x word slot _ ih =>
          constructor
          · intro inside
            rcases (plugged.leads _ _ _ inside).mp slot with within | ⟨rfl, dangling⟩
            · obtain ⟨first, escapes, second, member, rfl⟩ :=
                Language.mem_mul.mp (ih.1 (plugged.closed _ _ _ inside within))
              rw [← append_assoc]
              exact Language.append_mem_mul (Escapes.step within escapes) member
            · exact Language.append_mem_mul (Escapes.out dangling) (ih.2 rfl)
          · rintro rfl
            obtain ⟨rfl, next | wrong⟩ := (forks _ _).mp slot
            · cases next
              have member := ih.1 inside
              rw [← Language.one_add_self_mul_kstar_eq_kstar]
              exact Or.inr member
            · cases wrong
    exact (rounds target word escapes).2 rfl
  · intro member
    obtain ⟨words, rfl, all⟩ := Language.mem_kstar.mp member
    clear member
    induction words with
    | nil =>
        rw [unfolded]
        exact Or.inr rfl
    | cons first words ih =>
        rw [unfolded, flatten_cons]
        apply Or.inl
        apply Language.append_mem_mul (all first mem_cons_self)
        have others : ∀ other ∈ words, other ∈ exits slots start := fun other member =>
          all other (mem_cons_of_mem _ member)
        exact ih others

/-- A state with two silent slots has the words of both targets. -/
theorem exits_both {first second : State}
    (both : ∀ x next, slots p x next ↔ x = none ∧ (next = some first ∨ next = some second)) :
    exits slots p = exits slots first + exits slots second := by
  ext word
  rw [Language.mem_add, mem_exits_iff]
  constructor
  · rintro (⟨x, slot, rfl⟩ | ⟨x, next, rest, slot, later, rfl⟩)
    · obtain ⟨_, wrong | wrong⟩ := (both _ _).mp slot
      · cases wrong
      · cases wrong
    · obtain ⟨rfl, target | target⟩ := (both _ _).mp slot
      · cases target
        exact Or.inl later
      · cases target
        exact Or.inr later
  · rintro (later | later)
    · exact Or.inr ⟨none, first, word, (both _ _).mpr ⟨rfl, Or.inl rfl⟩, later, rfl⟩
    · exact Or.inr ⟨none, second, word, (both _ _).mpr ⟨rfl, Or.inr rfl⟩, later, rfl⟩

/-- A state whose slots all dangle has the words of its letters. -/
theorem exits_dangling (all : ∀ x q, ¬ slots p x (some q)) : word ∈ exits slots p ↔ ∃ x, slots p x none ∧ word = x.toList := by
  rw [mem_exits_iff]
  constructor
  · rintro (dangling | ⟨x, q, _, slot, _⟩)
    · exact dangling
    · exact absurd slot (all x q)
  · exact Or.inl

end Pictor.OpenGraph
