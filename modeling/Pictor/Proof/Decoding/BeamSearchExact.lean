import Mathlib.Algebra.Field.Rat
import Mathlib.Algebra.Order.Ring.Rat
import Pictor.Proof.Decoding.BeamSearchRun

namespace Pictor.BeamSearchEngine
open List

variable {K : Type} [LinearOrder K] {logits : List (LogProb K)}

section Greatest

/-- The first one of the greatest logits. -/
def greatest (logits : List (LogProb K)) : Nat :=
  logits.findIdx fun value => logits.all fun other => !LogProb.less value other

theorem findIdx_split {Item : Type} {holds : Item → Bool} {items : List Item} (found : ∃ item ∈ items, holds item = true) :
    ∃ front item back, items = front ++ item :: back ∧ items.findIdx holds = front.length ∧ holds item = true ∧
      ∀ other ∈ front, holds other = false := by
  induction items with
  | nil =>
      obtain ⟨item, member, _⟩ := found
      cases member
  | cons first rest ih =>
      cases here : holds first with
      | true => exact ⟨[], first, rest, rfl, by rw [findIdx_cons, here]; rfl, here, nofun⟩
      | false =>
          obtain ⟨item, member, good⟩ := found
          have later : item ∈ rest := (mem_cons.mp member).resolve_left fun same => by
            rw [same, here] at good
            cases good
          obtain ⟨front, item, back, rfl, place, good, others⟩ := ih ⟨item, later, good⟩
          refine ⟨first :: front, item, back, rfl, ?_, good, ?_⟩
          · rw [findIdx_cons, here, place]
            rfl
          · intro other member
            rcases mem_cons.mp member with rfl | inside
            · exact here
            · exact others other inside

theorem exists_greatest (some : logits ≠ []) (numbers : ∀ value ∈ logits, value ≠ .nan) :
    ∃ value ∈ logits, ∀ other ∈ logits, LogProb.less value other = false := by
  obtain ⟨_, _, above, found⟩ := LogProb.fold_max_spec logits .negInfinity nofun
  rcases found with none | listed
  · rw [none] at above
    obtain ⟨value, member⟩ := exists_mem_of_ne_nil logits some
    have lowest (other : LogProb K) (inside : other ∈ logits) : other = .negInfinity := by
      have small := above other inside
      have number := numbers other inside
      cases other with
      | finite => cases small
      | negInfinity => rfl
      | nan => exact absurd rfl number
    refine ⟨value, member, fun other inside => ?_⟩
    rw [lowest value member, lowest other inside]
    rfl
  · exact ⟨_, listed, above⟩

theorem greatest_spec (some : logits ≠ []) (numbers : ∀ value ∈ logits, value ≠ .nan) :
    ∃ front value back, logits = front ++ value :: back ∧ greatest logits = front.length ∧
      (∀ other ∈ logits, LogProb.less value other = false) ∧ ∀ other ∈ front, LogProb.less other value = true := by
  obtain ⟨top, inside, above⟩ := exists_greatest some numbers
  have found : ∃ value ∈ logits, (logits.all fun other => !LogProb.less value other) = true := by
    refine ⟨top, inside, ?_⟩
    rw [all_eq_true]
    intro other member
    rw [above other member]
    rfl
  obtain ⟨front, value, back, split, place, highest, before⟩ := findIdx_split found
  rw [all_eq_true] at highest
  have highest' (other : LogProb K) (member : other ∈ logits) : LogProb.less value other = false := by
    simpa using highest other member
  refine ⟨front, value, back, split, place, highest', fun other member => ?_⟩
  have lower := before other member
  rw [all_eq_false] at lower
  obtain ⟨greater, member', less⟩ := lower
  have number : value ≠ .nan := numbers value (split ▸ mem_append_right _ mem_cons_self)
  exact LogProb.less_of_less_of_not (by simpa using less) (highest' greater member') number

end Greatest

variable [Field K] {engine : BeamSearchEngine K} {prompt tokens : List UInt32} {step remaining : Nat} {beam : Beam K}

section Greedy

/-- The token of greedy decoding. -/
def greedyToken (engine : BeamSearchEngine K) (tokens : List UInt32) (step : Nat) : UInt32 :=
  UInt32.ofNat (greatest (engine.maskedLogits tokens step))

/-- Greedy decoding takes the greatest logit of each step. -/
def greedy (engine : BeamSearchEngine K) : Nat → Nat → List UInt32 → List UInt32
  | 0, _, tokens => tokens
  | remaining + 1, step, tokens =>
      let next := tokens ++ [engine.greedyToken tokens step]
      if engine.greedyToken tokens step = engine.config.eosTokenId then next else greedy engine remaining (step + 1) next

/-- The beam of greedy decoding after one more step. -/
def greedyNext (engine : BeamSearchEngine K) (step : Nat) (beam : Beam K) : Beam K :=
  let logits := engine.maskedLogits beam.tokens step
  engine.extend beam (engine.greedyToken beam.tokens step) ((engine.logSoftmax logits).getD (greatest logits) .nan)

/-- The token that ends a greedy decoding does not lower the score. -/
def KeepsScore (engine : BeamSearchEngine K) : Nat → Nat → Beam K → Prop
  | 0, _, _ => True
  | remaining + 1, step, beam =>
      let next := engine.greedyNext step beam
      if next.isDone = true then LogProb.less (engine.score next) (engine.score beam) = false
      else KeepsScore engine remaining (step + 1) next

/-- The beam that a search with one beam returns. -/
def single (engine : BeamSearchEngine K) : Nat → Nat → Beam K → Beam K
  | 0, _, beam => beam
  | remaining + 1, step, beam =>
      let next := engine.greedyNext step beam
      if next.isDone = true then
        if engine.config.earlyStopping && LogProb.less (engine.score next) (engine.score beam) then beam else next
      else single engine remaining (step + 1) next

theorem greedyNext_longer (engine : BeamSearchEngine K) (step : Nat) (beam : Beam K) :
    engine.greedyNext step beam ≠ beam := by
  intro same
  have size := congrArg (fun beam => beam.tokens.length) same
  have longer : (engine.greedyNext step beam).tokens.length = beam.tokens.length + 1 := length_append
  omega

/-- A child and its parent are sorted by their scores. -/
theorem sort_child (engine : BeamSearchEngine K) (step : Nat) (beam : Beam K) :
    (engine.sortByScore [engine.greedyNext step beam, beam]).take 1 =
      [if LogProb.less (engine.score (engine.greedyNext step beam)) (engine.score beam) then beam
        else engine.greedyNext step beam] := by
  rw [sortByScore, StableSort.sort_pair]
  · cases less : LogProb.less (engine.score (engine.greedyNext step beam)) (engine.score beam) with
    | true => simp [LogProb.descending, less]
    | false => simp [LogProb.descending, less]
  · intro other _
    rw [LogProb.descending, LogProb.not_less_self]
    rfl
  · simp only [LogProb.descending, Bool.not_eq_true']
    cases less : LogProb.less (engine.score (engine.greedyNext step beam)) (engine.score beam) with
    | false => exact Or.inl rfl
    | true =>
        right
        cases greater : LogProb.less (engine.score beam) (engine.score (engine.greedyNext step beam)) with
        | false => rfl
        | true =>
            have contrary := LogProb.less_trans less greater
            rw [LogProb.not_less_self] at contrary
            cases contrary
  · exact engine.greedyNext_longer step beam

theorem gathered_one (one : engine.width = 1) (beam : Beam K) (steps : Nat) :
    engine.gathered ⟨[beam], [], steps⟩ = [beam] := by
  rw [gathered, one, nil_append, sortByScore, StableSort.sort_singleton]
  rfl

/-- A beam that is done stays. -/
theorem loop_done (one : engine.width = 1) (done : beam.isDone = true) (steps : Nat) :
    engine.gathered (engine.loop remaining step ⟨[beam], [], steps⟩) = [beam] := by
  cases remaining with
  | zero => exact engine.gathered_one one beam steps
  | succ remaining =>
      have none : live (⟨[beam], [], steps⟩ : SearchState K) = [] := by
        rw [live, filter_cons_of_neg (by simpa using done), filter_nil]
      rw [loop, round_eq, none]
      exact engine.gathered_one one beam step

/-- A search with one beam is greedy decoding, unless a greedy end lowers the score. -/
theorem single_greedy (kept : engine.config.earlyStopping = false ∨ engine.KeepsScore remaining step beam) :
    (engine.single remaining step beam).tokens = engine.greedy remaining step beam.tokens := by
  induction remaining generalizing step beam with
  | zero => rfl
  | succ remaining ih =>
      rw [single, greedy]
      rw [KeepsScore] at kept
      by_cases ends : engine.greedyToken beam.tokens step = engine.config.eosTokenId
      · have done : (engine.greedyNext step beam).isDone = true := decide_eq_true ends
        rw [if_pos done] at kept
        rw [if_pos done, if_pos ends, if_neg]
        · rfl
        · rw [Bool.and_eq_true, not_and, Bool.not_eq_true]
          rcases kept with late | same
          · rw [late]
            nofun
          · exact fun _ => same
      · have open' : ¬(engine.greedyNext step beam).isDone = true := by simpa [greedyNext, extend] using ends
        rw [if_neg open'] at kept
        rw [if_neg open', if_neg ends]
        exact ih kept

/-- A greedy end that lowers the score is not returned. -/
theorem single_shorter (early : engine.config.earlyStopping = true) (dropped : ¬engine.KeepsScore remaining step beam) :
    (engine.single remaining step beam).tokens ≠ engine.greedy remaining step beam.tokens := by
  induction remaining generalizing step beam with
  | zero => exact absurd trivial dropped
  | succ remaining ih =>
      rw [single, greedy]
      rw [KeepsScore] at dropped
      by_cases ends : engine.greedyToken beam.tokens step = engine.config.eosTokenId
      · have done : (engine.greedyNext step beam).isDone = true := decide_eq_true ends
        rw [if_pos done, Bool.not_eq_false] at dropped
        rw [if_pos done, if_pos ends, early, dropped]
        intro same
        have size := congrArg List.length same
        rw [length_append, length_singleton] at size
        exact absurd size (Nat.ne_of_lt (Nat.lt_succ_self _))
      · have open' : ¬(engine.greedyNext step beam).isDone = true := by simpa [greedyNext, extend] using ends
        rw [if_neg open'] at dropped
        rw [if_neg open', if_neg ends]
        exact ih dropped

/-- Greedy decoding ends with the first end token, or after all steps. -/
theorem greedy_ends (opened : engine.Open prompt step tokens) (bound : step + remaining = engine.config.maxTokens) :
    engine.Closed prompt engine.config.maxTokens (engine.greedy remaining step tokens) ∨
      engine.Open prompt engine.config.maxTokens (engine.greedy remaining step tokens) := by
  induction remaining generalizing step tokens with
  | zero => exact Or.inr (bound ▸ opened)
  | succ remaining ih =>
      rw [greedy]
      split
      case isTrue ends => exact Or.inl ⟨step, by omega, tokens, opened, by rw [ends]⟩
      case isFalse goes =>
        apply ih _ (by omega)
        obtain ⟨generated, rfl, rfl, absent⟩ := opened
        refine ⟨generated ++ [engine.greedyToken (prompt ++ generated) generated.length], append_assoc _ _ _,
          length_append, ?_⟩
        rw [mem_append, mem_singleton, not_or]
        exact ⟨absent, Ne.symm goes⟩

end Greedy

section Returned

/-- The beams that a search returns. -/
def hypotheses (engine : BeamSearchEngine K) (prompt : List UInt32) : List (Beam K) :=
  engine.gathered (engine.stopped prompt)

/-- A search returns different finished sequences, none an ancestor of another one, and with one beam the greedy one. -/
structure Lawful (engine : BeamSearchEngine K) (prompt : List UInt32) : Prop where
  extending : ∀ tokens ∈ (engine.search prompt).sequences, prompt <+: tokens
  finished : ∀ beam ∈ engine.hypotheses prompt, engine.Closed prompt engine.config.maxTokens beam.tokens ∨
    engine.Open prompt engine.config.maxTokens beam.tokens ∨
    -- early stopping cut the search
    engine.config.earlyStopping = true ∧ ∃ other ∈ (engine.stopped prompt).completed,
      engine.Closed prompt engine.config.maxTokens other.tokens ∧
        LogProb.less (engine.score other) (engine.score beam) = false
  apart : ∀ tokens ∈ (engine.search prompt).sequences, ∀ other ∈ (engine.search prompt).sequences,
    tokens <+: other → tokens = other
  distinct : (engine.search prompt).sequences.Nodup
  greedy : engine.width = 1 → (engine.search prompt).best = engine.greedy engine.config.maxTokens 0 prompt

/-- Not all children of a step are done when the search stops early. With one beam, the greedy end keeps the score. -/
def Branches (engine : BeamSearchEngine K) (prompt : List UInt32) : Prop :=
  engine.config.maxTokens = 0 ∨ engine.config.earlyStopping = false ∨
    (2 ≤ engine.width ∧ ∀ tokens step, engine.config.eosTokenId ≠ 0 ∨ 2 ≤ (engine.getLogits tokens step).values.length) ∨
    (engine.width = 1 ∧ engine.KeepsScore engine.config.maxTokens 0 ⟨prompt, .finite 0, false⟩)

/-- A search that no step leaves with an expanded parent is lawful. -/
theorem lawful_of_within (wide : engine.width ≠ 1) (searching : engine.Searching prompt step (engine.stopped prompt))
    (limit : step ≤ engine.config.maxTokens)
    (halts : ∀ beam ∈ (engine.stopped prompt).beams, beam.isDone = false → step = engine.config.maxTokens ∨
      engine.config.earlyStopping = true ∧ ∃ other ∈ (engine.stopped prompt).completed,
        LogProb.less (engine.score other) (engine.score beam) = false) : engine.Lawful prompt := by
  have kind (beam : Beam K) (member : beam ∈ engine.hypotheses prompt) : engine.Closed prompt step beam.tokens ∨
      engine.Open prompt step beam.tokens ∧ beam.isDone = false ∧ beam ∈ (engine.stopped prompt).beams := by
    have listed := (@StableSort.mem_sort _ _ _ _ engine.sorting).mp (mem_of_mem_take member)
    rcases mem_append.mp listed with completed | inside
    · exact Or.inl (searching.completed beam completed)
    · have state := searching.beams beam inside
      split at state
      case isTrue => exact Or.inl state
      case isFalse live => exact Or.inr ⟨state, by simpa using live, inside⟩
  have either (tokens : List UInt32) (member : tokens ∈ (engine.search prompt).sequences) :
      engine.Closed prompt step tokens ∨ engine.Open prompt step tokens := by
    obtain ⟨beam, inside, rfl⟩ := mem_map.mp member
    exact (kind beam inside).imp_right And.left
  constructor
  · intro tokens member
    exact (either tokens member).elim Closed.extends Open.extends
  · intro beam member
    rcases kind beam member with closed | ⟨opened, live, inside⟩
    · exact Or.inl (closed.mono limit)
    · rcases halts beam inside live with rfl | ⟨early, other, completed, least⟩
      · exact Or.inr (Or.inl opened)
      · exact Or.inr (Or.inr ⟨early, other, completed, (searching.completed other completed).mono limit, least⟩)
  · intro tokens member other member' within
    exact BeamSearchEngine.apart (either tokens member) (either other member') within
  · have sorted : ((engine.sortByScore ((engine.stopped prompt).completed ++ (engine.stopped prompt).beams)).map
        Beam.tokens).Nodup := by
      rw [sortByScore, ((engine.sorting.perm _ _).map Beam.tokens).nodup_iff]
      exact searching.distinct
    exact sorted.sublist ((take_sublist _ _).map _)
  · exact fun one => absurd one wide

/-- Two tokens cannot both end a sequence. -/
theorem exists_open_child (wide : 2 ≤ engine.width)
    (branches : engine.config.eosTokenId ≠ 0 ∨ 2 ≤ (engine.getLogits beam.tokens step).values.length) :
    ∃ child ∈ engine.children step beam, child.isDone = false := by
  by_contra none
  push Not at none
  have ends (item : UInt32 × LogProb K)
      (member : item ∈ engine.topKLogProbs (engine.maskedLogits beam.tokens step) engine.width) :
      item.1 = engine.config.eosTokenId := by
    have done := none _ (mem_map_of_mem member)
    simpa [extend] using done
  have distinct := engine.topK_distinct (engine.length_masked_le beam.tokens step) engine.width
  have size := engine.length_topK (engine.maskedLogits beam.tokens step) engine.width
  have some := length_pos_iff.mpr (engine.getLogits beam.tokens step).nonempty
  have token (item : UInt32 × LogProb K)
      (member : item ∈ engine.topKLogProbs (engine.maskedLogits beam.tokens step) engine.width) := engine.topK_token member
  rw [length_maskedLogits] at size token
  revert size distinct ends token
  generalize engine.topKLogProbs (engine.maskedLogits beam.tokens step) engine.width = items
  intro ends distinct size token
  match items with
  | [] => rw [length_nil] at size; omega
  | [item] =>
      rw [length_singleton] at size
      obtain ⟨i, small, same⟩ := token item mem_cons_self
      have zero : i = 0 := by omega
      rw [ends item mem_cons_self, zero] at same
      rcases branches with other | more
      · exact other same
      · omega
  | first :: second :: rest =>
      rw [map_cons, map_cons, ends first mem_cons_self,
        ends second (mem_cons_of_mem _ mem_cons_self)] at distinct
      exact (nodup_cons.mp distinct).1 mem_cons_self

/-- A search that always keeps a candidate is lawful. -/
theorem lawful_of_branches (wide : engine.width ≠ 1) (branches : engine.config.maxTokens = 0 ∨
    engine.config.earlyStopping = false ∨ 2 ≤ engine.width ∧
      ∀ tokens step, engine.config.eosTokenId ≠ 0 ∨ 2 ≤ (engine.getLogits tokens step).values.length) :
    engine.Lawful prompt := by
  rcases branches with none | some
  · have still : engine.stopped prompt = start prompt := by
      rw [stopped, none]
      rfl
    apply lawful_of_within wide (still ▸ engine.searching_start prompt) (Nat.zero_le _)
    exact fun _ _ _ => Or.inl none.symm
  · have halted := engine.stopped_halted prompt
    generalize same : engine.stopped prompt = state at halted
    cases halted with
    | within searching limit halts =>
        rw [← same] at searching halts
        exact lawful_of_within wide searching limit halts
    | @stuck step before searching remains done =>
        exfalso
        obtain ⟨beam, inside⟩ := exists_mem_of_ne_nil _ remains
        obtain ⟨child, member, open'⟩ : ∃ child ∈ engine.children step beam, engine.finishes child = false := by
          rcases some with late | ⟨two, branches⟩
          · obtain ⟨child, member⟩ := exists_mem_of_ne_nil _ (engine.children_ne_nil step beam)
            exact ⟨child, member, by rw [finishes, late, Bool.false_and]⟩
          · obtain ⟨child, member, live⟩ := exists_open_child two (branches beam.tokens step)
            exact ⟨child, member, by rw [finishes, live, Bool.and_false]⟩
        have candidate : child ∈ engine.candidates step before :=
          mem_filter.mpr ⟨mem_flatMap.mpr ⟨beam, inside, member⟩, by rw [open']; rfl⟩
        rw [done] at candidate
        cases candidate

/-- With one token that ends each sequence, the prompt is returned with its only child. -/
theorem not_lawful_of_single (wide : 2 ≤ engine.width) (some : engine.config.maxTokens ≠ 0)
    (early : engine.config.earlyStopping = true) (ends : engine.config.eosTokenId = 0)
    (single : ∀ tokens step, (engine.getLogits tokens step).values.length = 1) : ¬engine.Lawful prompt := by
  have one : (engine.topKLogProbs (engine.maskedLogits prompt 0) engine.width).length = 1 := by
    rw [length_topK, length_maskedLogits, single]
    omega
  obtain ⟨item, only⟩ := length_eq_one_iff.mp one
  have token : item.1 = engine.config.eosTokenId := by
    have member : item ∈ engine.topKLogProbs (engine.maskedLogits prompt 0) engine.width := by
      rw [only]
      exact mem_cons_self
    obtain ⟨i, small, same⟩ := engine.topK_token member
    rw [length_maskedLogits, single] at small
    have zero : i = 0 := by omega
    rw [same, zero, ends]
    rfl
  let parent : Beam K := ⟨prompt, .finite 0, false⟩
  let child := engine.extend parent item.1 item.2
  have done : child.isDone = true := decide_eq_true token
  have finished : engine.finishes child = true := by rw [finishes, early, done]; rfl
  have expanded : engine.expanded 0 (start prompt) = [child] := by
    change ([parent].flatMap (engine.children 0)) = _
    rw [flatMap_singleton, children]
    change (engine.topKLogProbs (engine.maskedLogits prompt 0) engine.width).map _ = _
    rw [only]
    rfl
  have none : engine.candidates 0 (start prompt) = [] := by
    rw [candidates, expanded, filter_cons_of_neg (by simpa using finished), filter_nil]
  have completed : engine.completedAfter 0 (start prompt) = [child] := by
    rw [completedAfter, expanded, filter_cons_of_pos finished]
    rfl
  have stopped : engine.stopped prompt = ⟨[parent], [child], 1⟩ := by
    obtain ⟨remaining, same⟩ := Nat.exists_eq_succ_of_ne_zero some
    rw [BeamSearchEngine.stopped, same, loop, round_eq, none, completed]
    rfl
  have returned : (engine.hypotheses prompt).Perm [child, parent] := by
    have sorted := engine.sorting.perm (fun a b => LogProb.descending (engine.score a) (engine.score b)) [child, parent]
    have size := sorted.length_eq
    rw [hypotheses, stopped, gathered, sortByScore]
    change (List.take engine.width (engine.sorting.sort _ [child, parent])).Perm _
    rw [take_of_length_le (by rw [size]; exact wide)]
    exact sorted
  intro lawful
  have parent' : prompt ∈ (engine.search prompt).sequences :=
    mem_map.mpr ⟨parent, returned.mem_iff.mpr (mem_cons_of_mem _ mem_cons_self), rfl⟩
  have child' : child.tokens ∈ (engine.search prompt).sequences :=
    mem_map_of_mem (returned.mem_iff.mpr mem_cons_self)
  have same := congrArg List.length (lawful.apart _ parent' _ child' (List.prefix_append _ _))
  have longer : child.tokens.length = prompt.length + 1 := length_append
  omega

end Returned

variable [IsStrictOrderedRing K]

section Softmax

/-- The log-softmax keeps the order of the logits, and with a finite logit it keeps what is finite. -/
theorem logSoftmax_map (engine : BeamSearchEngine K) (numbers : ∀ value ∈ logits, value ≠ .nan) :
    ∃ normalised : LogProb K → LogProb K, engine.logSoftmax logits = logits.map normalised ∧
      (∀ a ∈ logits, ∀ b ∈ logits, LogProb.less (normalised a) (normalised b) = LogProb.less a b) ∧
      ((∃ value, LogProb.finite value ∈ logits) → ∀ a ∈ logits, normalised a ≠ .nan ∧
        (normalised a).isFinite = a.isFinite) := by
  let maxLogit := (logits.filter LogProb.isFinite).foldl LogProb.max .negInfinity
  let shift (value : LogProb K) : LogProb K := if value.isFinite then value.sub maxLogit else .negInfinity
  let total := engine.logSumExp (logits.map shift)
  refine ⟨fun value => (shift value).sub total, map_map, ?_⟩
  obtain ⟨_, _, above, found⟩ := LogProb.fold_max_spec (logits.filter LogProb.isFinite) .negInfinity (by rintro ⟨⟩)
  by_cases some : ∃ value, LogProb.finite value ∈ logits
  · obtain ⟨value, member⟩ := some
    obtain ⟨top, top'⟩ : ∃ top, maxLogit = .finite top := by
      rcases found with none | listed
      · have small := above _ (mem_filter.mpr ⟨member, rfl⟩)
        rw [none] at small
        cases small
      · have finite := (mem_filter.mp listed).2
        change maxLogit.isFinite = true at finite
        cases same : maxLogit with
        | finite top => exact ⟨top, rfl⟩
        | negInfinity => rw [same] at finite; cases finite
        | nan => rw [same] at finite; cases finite
    have shifted (a : K) : shift (.finite a) = .finite (a - top) := by
      change LogProb.sub (.finite a) maxLogit = _
      rw [top']
      rfl
    obtain ⟨sum, sum'⟩ : ∃ sum, total = .finite sum := by
      refine ⟨_, if_neg (@ne_nil_of_mem _ (engine.real.exp (value - top)) _ (mem_filterMap.mpr
        ⟨shift (.finite value), mem_map_of_mem member, ?_⟩))⟩
      rw [shifted]
    refine ⟨?_, fun _ a member => ?_⟩
    case refine_2 =>
      dsimp only
      rw [sum']
      cases a with
      | nan => exact absurd rfl (numbers _ member)
      | negInfinity => exact ⟨by rintro ⟨⟩, rfl⟩
      | finite a =>
          rw [shifted]
          exact ⟨by rintro ⟨⟩, rfl⟩
    intro a first b second
    dsimp only
    rw [sum']
    cases a with
    | nan => exact absurd rfl (numbers _ first)
    | negInfinity =>
        cases b with
        | nan => exact absurd rfl (numbers _ second)
        | negInfinity => rfl
        | finite b => rw [shifted]; rfl
    | finite a =>
        cases b with
        | nan => exact absurd rfl (numbers _ second)
        | negInfinity => rw [shifted]; rfl
        | finite b =>
            rw [shifted, shifted]
            exact decide_eq_decide.mpr (by rw [sub_lt_sub_iff_right, sub_lt_sub_iff_right])
  · have lowest (value : LogProb K) (member : value ∈ logits) : value = .negInfinity := by
      cases value with
      | finite value => exact absurd ⟨value, member⟩ some
      | negInfinity => rfl
      | nan => exact absurd rfl (numbers _ member)
    have none : total = .negInfinity := by
      refine if_pos (filterMap_eq_nil_iff.mpr ?_)
      intro value member
      obtain ⟨original, inside, rfl⟩ := mem_map.mp member
      rw [lowest original inside]
      rfl
    refine ⟨?_, fun finite => absurd finite some⟩
    intro a first b second
    rw [lowest a first, lowest b second]
    dsimp only
    rw [none]
    rfl

/-- The log-probabilities of one vector are ordered. -/
theorem indexed_ranks (engine : BeamSearchEngine K) (numbers : ∀ value ∈ logits, value ≠ .nan) :
    Ranks (fun a b => LogProb.descending a.2 b.2) (engine.indexed logits) := by
  obtain ⟨normalised, same, keeps, _⟩ := engine.logSoftmax_map numbers
  constructor
  · intro a first b second c third lower upper
    obtain ⟨a', inside, equal⟩ := indexed_entry same first
    obtain ⟨b', inside', equal'⟩ := indexed_entry same second
    obtain ⟨c', inside'', equal''⟩ := indexed_entry same third
    simp only [LogProb.descending, equal, equal', equal'', keeps _ inside _ inside', keeps _ inside' _ inside'',
      keeps _ inside _ inside'', Bool.not_eq_true'] at lower upper ⊢
    cases less : LogProb.less a' c' with
    | false => rfl
    | true =>
        have contrary := LogProb.less_of_less_of_not less upper (numbers b' inside')
        rw [lower] at contrary
        cases contrary
  · intro a first b second
    simp only [LogProb.descending, Bool.not_eq_true']
    cases less : LogProb.less a.2 b.2 with
    | false => exact Or.inl rfl
    | true =>
        right
        cases greater : LogProb.less b.2 a.2 with
        | false => rfl
        | true =>
            have contrary := LogProb.less_trans less greater
            rw [LogProb.not_less_self] at contrary
            cases contrary

/-- The best token is the first one of the greatest logits. -/
theorem topK_one (engine : BeamSearchEngine K) (some : logits ≠ []) (small : logits.length ≤ 2 ^ 32)
    (numbers : ∀ value ∈ logits, value ≠ .nan) : engine.topKLogProbs logits 1 =
      [(UInt32.ofNat (greatest logits), (engine.logSoftmax logits).getD (greatest logits) .nan)] := by
  obtain ⟨normalised, same, keeps, _⟩ := engine.logSoftmax_map numbers
  obtain ⟨front, value, back, split, place, highest, before⟩ := greatest_spec some numbers
  have member : value ∈ logits := split ▸ mem_append_right _ mem_cons_self
  have parts : engine.indexed logits =
      ((front.map normalised).zipIdx.map fun entry => (UInt32.ofNat entry.2, entry.1)) ++
        (UInt32.ofNat front.length, normalised value) ::
          ((back.map normalised).zipIdx (front.length + 1)).map fun entry => (UInt32.ofNat entry.2, entry.1) := by
    rw [indexed, same, split, map_append, map_cons, zipIdx_append, zipIdx_cons, map_append,
      map_cons, length_map, Nat.zero_add]
  obtain ⟨rest, sorted⟩ := engine.sorting.sort_first (engine.indexed_ranks numbers)
    (List.Nodup.of_map _ (engine.indexed_distinct small)) parts
    (by
      intro item listed
      obtain ⟨other, inside, equal⟩ := indexed_entry same listed
      simp only [LogProb.descending, equal, keeps _ member _ inside, highest other inside, Bool.not_false])
    (by
      intro item listed
      obtain ⟨⟨changed, i⟩, placed, rfl⟩ := mem_map.mp listed
      obtain ⟨other, inside, rfl⟩ := mem_map.mp (fst_mem_of_mem_zipIdx placed)
      have whole : other ∈ logits := split ▸ mem_append_left _ inside
      simp only [LogProb.descending, keeps _ whole _ member, before other inside, Bool.not_true])
  rw [topK_eq, sorted, take_succ_cons, take_zero, same, place, split]
  simp

end Softmax

section One

theorem children_one (one : engine.width = 1) (step : Nat) (beam : Beam K) :
    engine.children step beam = [engine.greedyNext step beam] := by
  rw [children, one, engine.topK_one (engine.masked_ne_nil _ _) (engine.length_masked_le _ _)
    (engine.masked_numbers _ _)]
  rfl

/-- A search with one beam returns one beam. -/
theorem loop_one (one : engine.width = 1) (notDone : beam.isDone = false) (steps : Nat) :
    engine.gathered (engine.loop remaining step ⟨[beam], [], steps⟩) = [engine.single remaining step beam] := by
  induction remaining generalizing step beam steps with
  | zero => exact engine.gathered_one one beam steps
  | succ remaining ih =>
      let next := engine.greedyNext step beam
      have alive : live (⟨[beam], [], steps⟩ : SearchState K) = [beam] := by
        rw [live, filter_cons_of_pos (by rw [notDone]; rfl), filter_nil]
      have expanded : engine.expanded step ⟨[beam], [], steps⟩ = [next] := by
        rw [BeamSearchEngine.expanded, alive, flatMap_singleton, children_one one]
      have before : ([beam].filter Beam.isDone).reverse = [] := by
        rw [filter_cons_of_neg (by simpa using notDone)]
        rfl
      rw [loop, round_eq, alive, single]
      by_cases finished : engine.finishes next = true
      · -- the only child is completed at once, and its parent is gathered with it
        have none : engine.candidates step ⟨[beam], [], steps⟩ = [] := by
          rw [candidates, expanded, filter_cons_of_neg (by simpa using finished), filter_nil]
        have completed : engine.completedAfter step ⟨[beam], [], steps⟩ = [next] := by
          rw [completedAfter, expanded, before, filter_cons_of_pos finished]
          rfl
        rw [none, completed]
        rw [finishes, Bool.and_eq_true] at finished
        change engine.gathered ⟨[beam], [next], step + 1⟩ = _
        rw [if_pos finished.2, finished.1, Bool.true_and, gathered, one]
        exact engine.sort_child step beam
      · have some : engine.candidates step ⟨[beam], [], steps⟩ = [next] := by
          rw [candidates, expanded, filter_cons_of_pos (by simpa using finished), filter_nil]
        have pruned : engine.pruned step ⟨[beam], [], steps⟩ = ⟨[next], [], step + 1⟩ := by
          rw [BeamSearchEngine.pruned, some, completedAfter, expanded, before, filter_cons_of_neg finished, pruneBeams,
            sortByScore, StableSort.sort_singleton, one]
          rfl
        have goes : engine.outscored (⟨[next], [], step + 1⟩ : SearchState K) = false := by
          rw [outscored]
          simp
        rw [some, pruned, goes]
        change engine.gathered (engine.loop remaining (step + 1) ⟨[next], [], step + 1⟩) = _
        by_cases done : next.isDone = true
        · rw [finishes, done, Bool.and_true, Bool.not_eq_true] at finished
          rw [if_pos done, finished, Bool.false_and]
          exact loop_done one done (step + 1)
        · rw [if_neg done]
          exact ih (by simpa using done) (step + 1)

theorem lawful_one_iff (one : engine.width = 1) : engine.Lawful prompt ↔
    engine.config.earlyStopping = false ∨ engine.KeepsScore engine.config.maxTokens 0 ⟨prompt, .finite 0, false⟩ := by
  have returned : engine.hypotheses prompt = [engine.single engine.config.maxTokens 0 ⟨prompt, .finite 0, false⟩] :=
    loop_one one rfl 0
  have sequences : (engine.search prompt).sequences =
      [(engine.single engine.config.maxTokens 0 ⟨prompt, .finite 0, false⟩).tokens] :=
    congrArg (List.map Beam.tokens) returned
  have best : (engine.search prompt).best =
      (engine.single engine.config.maxTokens 0 ⟨prompt, .finite 0, false⟩).tokens := by
    rw [BeamSearchResult.best, sequences]
    rfl
  constructor
  · intro lawful
    by_contra dropped
    rw [not_or, Bool.not_eq_false] at dropped
    exact single_shorter dropped.1 dropped.2 (best ▸ lawful.greedy one)
  · intro kept
    have greedy := single_greedy kept
    have opened : engine.Open prompt 0 prompt := ⟨[], (append_nil _).symm, rfl, not_mem_nil⟩
    have ends := greedy_ends opened (Nat.zero_add _)
    rw [← greedy] at ends
    constructor
    · intro tokens member
      rw [sequences, mem_singleton] at member
      rw [member]
      exact ends.elim Closed.extends Open.extends
    · intro beam member
      rw [returned, mem_singleton] at member
      rw [member]
      exact ends.imp_right Or.inl
    · intro tokens member other member' _
      rw [sequences, mem_singleton] at member member'
      rw [member, member']
    · rw [sequences]
      exact nodup_singleton _
    · exact fun _ => best.trans greedy

/-- A search is lawful if it branches, and only then if it has one beam or if all logits are as long as the vocabulary. -/
theorem search_lawful_iff (engine : BeamSearchEngine K) (prompt : List UInt32) :
    (engine.Branches prompt → engine.Lawful prompt) ∧
      ((engine.width = 1 ∨ ∃ vocabSize, ∀ tokens step, (engine.getLogits tokens step).values.length = vocabSize) →
        (engine.Lawful prompt ↔ engine.Branches prompt)) := by
  have sound (branches : engine.Branches prompt) : engine.Lawful prompt := by
    by_cases one : engine.width = 1
    · rw [lawful_one_iff one]
      rcases branches with none | late | ⟨wide, _⟩ | ⟨_, kept⟩
      · rw [none]
        exact Or.inr trivial
      · exact Or.inl late
      · omega
      · exact Or.inr kept
    · apply lawful_of_branches one
      rcases branches with none | late | wide | ⟨same, _⟩
      · exact Or.inl none
      · exact Or.inr (Or.inl late)
      · exact Or.inr (Or.inr wide)
      · exact absurd same one
  refine ⟨sound, fun contract => ⟨fun lawful => ?_, sound⟩⟩
  by_cases one : engine.width = 1
  · rcases (lawful_one_iff one).mp lawful with late | kept
    · exact Or.inr (Or.inl late)
    · exact Or.inr (Or.inr (Or.inr ⟨one, kept⟩))
  · obtain ⟨vocabSize, size⟩ := contract.resolve_left one
    have wide : 2 ≤ engine.width := by
      have positive := engine.width_pos
      omega
    by_contra stuck
    rw [Branches, not_or, not_or, not_or, Bool.not_eq_false, not_and] at stuck
    obtain ⟨some, early, narrow, _⟩ := stuck
    have narrow := narrow wide
    push Not at narrow
    obtain ⟨tokens, step, ends, short⟩ := narrow
    have single : vocabSize = 1 := by
      have nonempty := length_pos_iff.mpr (engine.getLogits tokens step).nonempty
      rw [size] at short nonempty
      omega
    exact not_lawful_of_single wide some early ends (fun tokens step => single ▸ size tokens step) lawful

end One

section Lonely

/-- Rational functions that agree with the real ones at the logit 0 and for the length penalty 1. -/
def rationalFunctions : RealFunctions Rat where
  exp x := x + 1
  ln x := x - 1
  powf base _ := base
  powf_pos _ _ positive := positive

/-- The only token of the vocabulary ends a sequence. -/
def lonelyEngine : BeamSearchEngine Rat where
  config := ⟨2, 3, 1, 0, true, 0⟩
  real := rationalFunctions
  sorting := .merging
  getLogits _ _ := ⟨[0], cons_ne_nil _ _, by decide⟩

/-- The prompt is returned next to its extension. -/
theorem lonely_not_lawful : ¬lonelyEngine.Lawful [7] :=
  not_lawful_of_single (by decide) (by decide) rfl rfl fun _ _ => rfl

/-- The search over one token is in question. -/
theorem lonely_iff : lonelyEngine.Lawful [7] ↔ lonelyEngine.Branches [7] :=
  (search_lawful_iff lonelyEngine [7]).2 (Or.inr ⟨1, fun _ _ => rfl⟩)

end Lonely

end Pictor.BeamSearchEngine
