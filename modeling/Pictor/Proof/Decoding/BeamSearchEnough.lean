import Mathlib.Algebra.Order.BigOperators.Group.List
import Pictor.Proof.Decoding.BeamSearchExact

namespace Pictor
open List

section Mask

variable {Logit : Type} {negInfinity : Logit} {logits : List Logit} {tokens : List UInt32} {token : UInt32}
  {ngramSize start : Nat}

/-- The token would complete an n-gram that the sequence already has. -/
def Repeats (ngramSize : Nat) (tokens : List UInt32) (token : UInt32) : Prop :=
  ∃ gram, gram.length = ngramSize ∧ gram <:+ tokens ++ [token] ∧ gram <:+: tokens

/-- The token behind a window that is the end of the sequence. -/
def bannedAt (prefixLen : Nat) (tokens : List UInt32) (start : Nat) : Option UInt32 :=
  if (tokens.drop start).take prefixLen = tokens.drop (tokens.length - prefixLen) then tokens[start + prefixLen]?
  else none

/-- The token with this number is behind such a window. -/
def BannedBy (prefixLen : Nat) (tokens : List UInt32) (starts : List Nat) (i : Nat) : Prop :=
  ∃ start ∈ starts, ∃ token, bannedAt prefixLen tokens start = some token ∧ token.toNat = i

/-- The token with this number would repeat an n-gram. -/
def RepeatsAt (ngramSize : Nat) (tokens : List UInt32) (i : Nat) : Prop :=
  ∃ token : UInt32, token.toNat = i ∧ Repeats ngramSize tokens token

theorem bannedBy_nil (prefixLen : Nat) (tokens : List UInt32) (i : Nat) : ¬BannedBy prefixLen tokens [] i := by
  rintro ⟨_, member, _⟩
  exact not_mem_nil member

theorem bannedBy_cons (prefixLen : Nat) (starts : List Nat) (i : Nat) : BannedBy prefixLen tokens (start :: starts) i ↔
    (∃ token, bannedAt prefixLen tokens start = some token ∧ token.toNat = i) ∨ BannedBy prefixLen tokens starts i :=
  exists_mem_cons_iff _ _ _

/-- A scan over windows sets exactly the logits of the tokens behind them. -/
theorem scan_getElem? {scan : List Logit → Nat → List Logit} (prefixLen : Nat) (step : ∀ logits start,
      scan logits start = match bannedAt prefixLen tokens start with
        | some banned => logits.set banned.toNat negInfinity
        | none => logits) (starts : List Nat) (logits : List Logit) (i : Nat) :
    (starts.foldl scan logits)[i]? = open Classical in logits[i]?.map fun logit =>
      if BannedBy prefixLen tokens starts i then negInfinity else logit := by
  classical
  induction starts generalizing logits with
  | nil => simp [bannedBy_nil]
  | cons start starts ih =>
      rw [foldl_cons, ih, step]
      have split := @bannedBy_cons tokens start prefixLen starts i
      cases banned : bannedAt prefixLen tokens start with
      | none =>
          have same : BannedBy prefixLen tokens (start :: starts) i ↔ BannedBy prefixLen tokens starts i := by
            simp [split, banned]
          simp only [same]
      | some token =>
          have same : BannedBy prefixLen tokens (start :: starts) i ↔
              token.toNat = i ∨ BannedBy prefixLen tokens starts i := by
            simp [split, banned]
          dsimp only
          rw [getElem?_set]
          by_cases here : token.toNat = i
          · by_cases inside : i < logits.length
            · simp [same, here, inside]
            · simp [inside, here]
          · simp [same, here]

/-- A window that is the end of the sequence stands before the token of a repeated n-gram. -/
theorem repeats_iff (positive : 0 < ngramSize) (long : ngramSize ≤ tokens.length) : Repeats ngramSize tokens token ↔
      ∃ start ∈ List.range (tokens.length - (ngramSize - 1)), bannedAt (ngramSize - 1) tokens start = some token := by
  have size : (tokens.drop (tokens.length - (ngramSize - 1))).length = ngramSize - 1 := by
    rw [length_drop]
    omega
  constructor
  · rintro ⟨gram, length, ends, front, back, whole⟩
    have last : gram = tokens.drop (tokens.length - (ngramSize - 1)) ++ [token] := by
      have other : tokens.drop (tokens.length - (ngramSize - 1)) ++ [token] <:+ tokens ++ [token] := by
        obtain ⟨before, same⟩ := drop_suffix (tokens.length - (ngramSize - 1)) tokens
        exact ⟨before, by rw [← append_assoc, same]⟩
      apply (suffix_of_suffix_length_le ends other _).eq_of_length
      · rw [length, length_append, size, length_singleton]
        omega
      · rw [length, length_append, size, length_singleton]
        omega
    have place : tokens.drop front.length = tokens.drop (tokens.length - (ngramSize - 1)) ++ token :: back := by
      conv_lhs => rw [← whole, append_assoc, drop_left]
      rw [last, append_assoc, singleton_append]
    have total := congrArg List.length whole
    rw [length_append, length_append, length] at total
    refine ⟨front.length, mem_range.mpr (by omega), ?_⟩
    rw [bannedAt, place, take_left' size, if_pos rfl, ← getElem?_drop, place,
      getElem?_append_right (Nat.le_of_eq size), size, Nat.sub_self, getElem?_cons_zero]
  · rintro ⟨start, inside, banned⟩
    rw [bannedAt] at banned
    split at banned
    case isFalse => cases banned
    case isTrue window =>
      obtain ⟨bound, here⟩ := List.getElem?_eq_some_iff.mp banned
      refine ⟨tokens.drop (tokens.length - (ngramSize - 1)) ++ [token], ?_, ?_, tokens.take start,
        tokens.drop (start + (ngramSize - 1) + 1), ?_⟩
      · rw [length_append, size, length_singleton]
        omega
      · obtain ⟨before, same⟩ := drop_suffix (tokens.length - (ngramSize - 1)) tokens
        exact ⟨before, by rw [← append_assoc, same]⟩
      · have rest : tokens.drop (start + (ngramSize - 1)) = token :: tokens.drop (start + (ngramSize - 1) + 1) := by
          rw [drop_eq_getElem_cons bound, here]
        calc tokens.take start ++ (tokens.drop (tokens.length - (ngramSize - 1)) ++ [token]) ++
              tokens.drop (start + (ngramSize - 1) + 1)
            = tokens.take start ++ ((tokens.drop start).take (ngramSize - 1) ++
                (tokens.drop start).drop (ngramSize - 1)) := by
              rw [window, drop_drop, rest]
              simp
          _ = tokens := by rw [take_append_drop, take_append_drop]

/-- Exactly the tokens are masked that would repeat an n-gram. -/
theorem applyNoRepeatNgram_getElem? (positive : 0 < ngramSize) (i : Nat) :
    (applyNoRepeatNgram negInfinity logits tokens ngramSize)[i]? = open Classical in logits[i]?.map fun logit =>
      if RepeatsAt ngramSize tokens i then negInfinity else logit := by
  classical
  rw [applyNoRepeatNgram]
  split
  case isTrue short =>
    have none (token : UInt32) : ¬Repeats ngramSize tokens token := by
      rintro ⟨gram, length, _, inside⟩
      have bound := inside.length_le
      omega
    simp [RepeatsAt, none]
  case isFalse long =>
    have enough : ngramSize ≤ tokens.length := by omega
    dsimp only
    rw [@scan_getElem? _ negInfinity tokens _ (ngramSize - 1)]
    case step =>
      intro logits start
      rw [bannedAt]
      split <;> rfl
    refine congrArg (fun change => Option.map change logits[i]?) (funext fun logit => if_congr ?_ rfl rfl)
    constructor
    · rintro ⟨start, inside, token, banned, same⟩
      exact ⟨token, same, (repeats_iff positive enough).mpr ⟨start, inside, banned⟩⟩
    · rintro ⟨token, same, repeats⟩
      obtain ⟨start, inside, banned⟩ := (repeats_iff positive enough).mp repeats
      exact ⟨start, inside, token, banned, same⟩

end Mask

end Pictor

namespace Pictor
open List

namespace LogProb

variable {K : Type} [Field K] {a b : LogProb K}

theorem isFinite_add (a b : LogProb K) : (a.add b).isFinite = (a.isFinite && b.isFinite) := by
  cases a <;> cases b <;> rfl

theorem add_number (first : a ≠ nan) (second : b ≠ nan) : a.add b ≠ nan := by
  cases a <;> cases b <;> simp_all [add]

theorem isFinite_div (a : LogProb K) (divisor : K) : (a.div divisor).isFinite = a.isFinite := by
  cases a <;> rfl

theorem div_number (number : a ≠ nan) (divisor : K) : a.div divisor ≠ nan := by
  cases a <;> simp_all [div]

end LogProb

section Ordered

variable {K : Type} [LinearOrder K] {Item : Type} {key : Item → LogProb K} {items : List Item}

/-- Values that are numbers are ordered. -/
theorem descending_ranks (numbers : ∀ item ∈ items, key item ≠ .nan) :
    Ranks (fun a b => LogProb.descending (key a) (key b)) items := by
  constructor
  · intro a _ b second c _ lower upper
    simp only [LogProb.descending, Bool.not_eq_true'] at lower upper ⊢
    cases less : LogProb.less (key a) (key c) with
    | false => rfl
    | true =>
        have contrary := LogProb.less_of_less_of_not less upper (numbers b second)
        rw [lower] at contrary
        cases contrary
  · intro a _ b _
    simp only [LogProb.descending, Bool.not_eq_true']
    cases less : LogProb.less (key a) (key b) with
    | false => exact Or.inl rfl
    | true =>
        right
        cases greater : LogProb.less (key b) (key a) with
        | false => rfl
        | true =>
            have contrary := LogProb.less_trans less greater
            rw [LogProb.not_less_self] at contrary
            cases contrary

/-- Finite values come before negative infinity. -/
theorem descending_upward (numbers : ∀ item ∈ items, key item ≠ .nan) : ∀ a ∈ items, ∀ b ∈ items,
    LogProb.descending (key a) (key b) = true → (key b).isFinite = true → (key a).isFinite = true := by
  intro a first b _ lower finite
  have number := numbers a first
  cases value : key a with
  | finite => rfl
  | nan => exact absurd value number
  | negInfinity =>
      cases other : key b with
      | finite => rw [value, other] at lower; cases lower
      | negInfinity => rw [other] at finite; cases finite
      | nan => rw [other] at finite; cases finite

end Ordered

namespace BeamSearchEngine

section Finites

variable {K : Type} {beams : List (Beam K)}

/-- The beams with finite log-probabilities. -/
def finites (beams : List (Beam K)) : List (Beam K) := beams.filter fun beam => beam.logProb.isFinite

theorem finites_append (first second : List (Beam K)) : finites (first ++ second) = finites first ++ finites second :=
  filter_append _ _

theorem finites_perm {other : List (Beam K)} (permuted : beams.Perm other) : (finites beams).Perm (finites other) :=
  permuted.filter _

end Finites

variable {K : Type} [LinearOrder K] [Field K] [IsStrictOrderedRing K] {engine : BeamSearchEngine K}
  {logits : List (LogProb K)} {prompt tokens : List UInt32} {token : UInt32} {step : Nat} {beam child : Beam K}

section Fresh

/-- No n-gram that ends in the generated part occurred earlier. -/
def Fresh (engine : BeamSearchEngine K) (prompt tokens : List UInt32) : Prop :=
  ∀ front token, front ++ [token] <+: tokens → prompt.length ≤ front.length →
    ¬Repeats engine.config.noRepeatNgramSize front token

omit [IsStrictOrderedRing K] in
theorem fresh_prompt (engine : BeamSearchEngine K) (prompt : List UInt32) : engine.Fresh prompt prompt := by
  intro front token within long
  have short := within.length_le
  rw [length_append, length_singleton] at short
  omega

omit [IsStrictOrderedRing K] in
/-- One more token keeps a sequence fresh if it repeats nothing. -/
theorem fresh_concat (extending : prompt <+: tokens) : engine.Fresh prompt (tokens ++ [token]) ↔
    engine.Fresh prompt tokens ∧ ¬Repeats engine.config.noRepeatNgramSize tokens token := by
  constructor
  · intro fresh
    exact ⟨fun front token within => fresh front token (within.trans (List.prefix_append _ _)),
      fresh tokens token (prefix_refl _) extending.length_le⟩
  · rintro ⟨fresh, new⟩ front last within long
    rcases prefix_concat_iff.mp within with same | earlier
    · obtain ⟨rfl, equal⟩ := append_inj' same rfl
      rwa [(List.cons.inj equal).1]
    · exact fresh front last earlier long

/-- Some token of the sequence is neither masked nor without a logit. -/
def Allowed (engine : BeamSearchEngine K) (step : Nat) (beam : Beam K) : Prop :=
  ∃ value, LogProb.finite value ∈ engine.maskedLogits beam.tokens step

omit [IsStrictOrderedRing K] in
/-- A logit is masked exactly if its token repeats an n-gram. -/
theorem masked_isFinite (positive : 0 < engine.config.noRepeatNgramSize) {i : Nat} {value : LogProb K}
    (here : (engine.maskedLogits tokens step)[i]? = some value) :
    value.isFinite = true ↔ ¬Repeats engine.config.noRepeatNgramSize tokens (UInt32.ofNat i) := by
  classical
  have small : i < 2 ^ 32 := by
    have bound := (List.getElem?_eq_some_iff.mp here).1
    exact Nat.lt_of_lt_of_le bound (engine.length_masked_le tokens step)
  have id : RepeatsAt engine.config.noRepeatNgramSize tokens i ↔
      Repeats engine.config.noRepeatNgramSize tokens (UInt32.ofNat i) := by
    constructor
    · rintro ⟨token, rfl, repeats⟩
      rwa [UInt32.ofNat_toNat]
    · exact fun repeats => ⟨UInt32.ofNat i, UInt32.toNat_ofNat_of_lt' small, repeats⟩
  rw [maskedLogits] at here
  rw [if_pos positive, applyNoRepeatNgram_getElem? positive, Option.map_eq_some_iff] at here
  obtain ⟨logit, listed, rfl⟩ := here
  rw [getElem?_map, Option.map_eq_some_iff] at listed
  obtain ⟨original, _, rfl⟩ := listed
  simp only [id]
  split
  case isTrue repeats => exact iff_of_false Bool.false_ne_true (not_not_intro repeats)
  case isFalse new => exact iff_of_true rfl new

/-- An entry of the sorted list stands for a masked logit. -/
theorem indexed_isFinite (engine : BeamSearchEngine K) (tokens : List UInt32) (step : Nat)
    (some : ∃ value, LogProb.finite value ∈ engine.maskedLogits tokens step) {item : UInt32 × LogProb K}
    (member : item ∈ engine.indexed (engine.maskedLogits tokens step)) : item.2 ≠ .nan ∧
      ∃ i value, (engine.maskedLogits tokens step)[i]? = Option.some value ∧ item.1 = UInt32.ofNat i ∧
        item.2.isFinite = value.isFinite := by
  obtain ⟨normalised, same, _, keeps⟩ := engine.logSoftmax_map (engine.masked_numbers tokens step)
  obtain ⟨⟨changed, i⟩, placed, rfl⟩ := mem_map.mp member
  have here := mk_mem_zipIdx_iff_getElem?.mp placed
  rw [same, getElem?_map, Option.map_eq_some_iff] at here
  obtain ⟨value, listed, rfl⟩ := here
  obtain ⟨number, finite⟩ := keeps some value (mem_of_getElem? listed)
  exact ⟨number, i, value, listed, rfl, finite⟩

/-- A beam with a finite log-probability is a fresh one. -/
structure Traced (engine : BeamSearchEngine K) (prompt : List UInt32) (beam : Beam K) : Prop where
  extending : prompt <+: beam.tokens
  number : beam.logProb ≠ .nan
  fresh : beam.logProb.isFinite = true ↔ engine.Fresh prompt beam.tokens

omit [IsStrictOrderedRing K] in
theorem traced_start (engine : BeamSearchEngine K) (prompt : List UInt32) :
    engine.Traced prompt ⟨prompt, .finite 0, false⟩ :=
  ⟨prefix_refl _, nofun, iff_of_true rfl (engine.fresh_prompt prompt)⟩

/-- A child of a traced beam is traced. -/
theorem Traced.child_traced (positive : 0 < engine.config.noRepeatNgramSize) (traced : engine.Traced prompt beam)
    (allowed : engine.Allowed step beam) (member : child ∈ engine.children step beam) : engine.Traced prompt child := by
  obtain ⟨⟨token, logProb⟩, listed, rfl⟩ := mem_map.mp member
  have inside := (@StableSort.mem_sort _ _ _ _ engine.sorting).mp (mem_of_mem_take listed)
  obtain ⟨number, i, value, here, rfl, finite⟩ := engine.indexed_isFinite beam.tokens step allowed inside
  constructor
  · exact traced.extending.trans (List.prefix_append _ _)
  · exact LogProb.add_number traced.number number
  · change (beam.logProb.add logProb).isFinite = true ↔ engine.Fresh prompt (beam.tokens ++ [UInt32.ofNat i])
    change logProb.isFinite = value.isFinite at finite
    rw [fresh_concat traced.extending, LogProb.isFinite_add, Bool.and_eq_true, traced.fresh, finite,
      masked_isFinite positive here]

end Fresh

section Counts

/-- The children of a beam over its tokens that are not masked. -/
def allowed (engine : BeamSearchEngine K) (step : Nat) (beam : Beam K) : List (Beam K) :=
  ((engine.indexed (engine.maskedLogits beam.tokens step)).filter fun item => item.2.isFinite).map
    fun (token, logProb) => engine.extend beam token logProb

omit [IsStrictOrderedRing K] in
/-- A beam without a finite log-probability has no child with one. -/
theorem finites_children_lost (lost : beam.logProb.isFinite = false) : finites (engine.children step beam) = [] := by
  rw [finites, filter_eq_nil_iff]
  intro child member
  obtain ⟨⟨token, logProb⟩, _, rfl⟩ := mem_map.mp member
  have sum := LogProb.isFinite_add beam.logProb logProb
  rw [lost, Bool.false_and] at sum
  change ¬(beam.logProb.add logProb).isFinite = true
  rw [sum]
  exact Bool.false_ne_true

omit [IsStrictOrderedRing K] in
theorem finites_children (kept : beam.logProb.isFinite = true) : finites (engine.children step beam) =
    ((engine.topKLogProbs (engine.maskedLogits beam.tokens step) engine.width).filter fun item => item.2.isFinite).map
      fun (token, logProb) => engine.extend beam token logProb := by
  rw [finites, children, filter_map]
  congr 2
  funext item
  change (beam.logProb.add item.2).isFinite = item.2.isFinite
  rw [LogProb.isFinite_add, kept, Bool.true_and]

theorem indexed_numbers (engine : BeamSearchEngine K) (allowed : engine.Allowed step beam) :
    ∀ item ∈ engine.indexed (engine.maskedLogits beam.tokens step), item.2 ≠ .nan :=
  fun _ member => (engine.indexed_isFinite beam.tokens step allowed member).1

/-- As many allowed children are kept as there are beams. -/
theorem length_finites_children (kept : beam.logProb.isFinite = true) (allowed : engine.Allowed step beam) :
    (finites (engine.children step beam)).length = min engine.width (engine.allowed step beam).length := by
  rw [finites_children kept, length_map, topK_eq, engine.sorting.length_filter_sort_take
    (descending_ranks (engine.indexed_numbers allowed)) (descending_upward (engine.indexed_numbers allowed)), BeamSearchEngine.allowed,
    length_map]

theorem finites_children_perm (kept : beam.logProb.isFinite = true) (allowed : engine.Allowed step beam)
    (few : (engine.allowed step beam).length ≤ engine.width) :
    (finites (engine.children step beam)).Perm (engine.allowed step beam) := by
  rw [BeamSearchEngine.allowed, length_map] at few
  rw [finites_children kept, topK_eq, BeamSearchEngine.allowed]
  exact (engine.sorting.filter_sort_take_perm (descending_ranks (engine.indexed_numbers allowed))
    (descending_upward (engine.indexed_numbers allowed)) few).map _

/-- Each masked or unmasked logit has an entry. -/
theorem indexed_of_masked (allowed : engine.Allowed step beam) {value : LogProb K}
    (member : value ∈ engine.maskedLogits beam.tokens step) :
    ∃ item ∈ engine.indexed (engine.maskedLogits beam.tokens step), item.2.isFinite = value.isFinite := by
  obtain ⟨normalised, same, _, keeps⟩ := engine.logSoftmax_map (engine.masked_numbers beam.tokens step)
  obtain ⟨i, bound, here⟩ := getElem_of_mem member
  refine ⟨(UInt32.ofNat i, normalised value), ?_, (keeps allowed value member).2⟩
  apply mem_map.mpr ⟨(normalised value, i), _, rfl⟩
  rw [mk_mem_zipIdx_iff_getElem?, same, getElem?_map, getElem?_eq_getElem bound, here]
  rfl

/-- An allowed token gives an allowed child. -/
theorem allowed_ne_nil (allowed : engine.Allowed step beam) : engine.allowed step beam ≠ [] := by
  obtain ⟨value, member⟩ := id allowed
  obtain ⟨item, inside, finite⟩ := indexed_of_masked allowed member
  exact ne_nil_of_mem (mem_map_of_mem (mem_filter.mpr ⟨inside, finite⟩))

end Counts

end BeamSearchEngine

end Pictor

namespace Pictor
open List

section Sums

variable {Item : Type} {items : List Item} {f : Item → Nat} {width : Nat}

/-- Bounded parts are at least the bounded sum. -/
theorem min_sum_le (width : Nat) (f : Item → Nat) (items : List Item) :
    min width (items.map f).sum ≤ (items.map fun item => min width (f item)).sum := by
  induction items with
  | nil => exact Nat.min_le_right _ _
  | cons item items ih =>
      rw [map_cons, map_cons, sum_cons, sum_cons]
      omega

theorem length_le_sum (positive : ∀ item ∈ items, 0 < f item) : items.length ≤ (items.map f).sum := by
  induction items with
  | nil => exact Nat.zero_le _
  | cons item items ih =>
      obtain ⟨first, others⟩ := forall_mem_cons.mp positive
      have later := ih others
      rw [map_cons, sum_cons, length_cons]
      omega

/-- Only the items of a kind have images. -/
theorem flatMap_filter {Image : Type} {kind : Item → Bool} {images : Item → List Image}
    (none : ∀ item ∈ items, kind item = false → images item = []) :
    (items.filter kind).flatMap images = items.flatMap images := by
  induction items with
  | nil => rfl
  | cons item items ih =>
      obtain ⟨first, others⟩ := forall_mem_cons.mp none
      rw [flatMap_cons]
      cases here : kind item with
      | true => rw [filter_cons_of_pos here, flatMap_cons, ih others]
      | false => rw [filter_cons_of_neg (by simp [here]), first here, ih others, nil_append]

end Sums

namespace BeamSearchEngine

variable {K : Type} [LinearOrder K] [Field K] [IsStrictOrderedRing K] {engine : BeamSearchEngine K}
  {prompt : List UInt32} {step : Nat} {beam child : Beam K} {beams : List (Beam K)} {state : SearchState K}

section Followed

/-- Each beam of a state is traced, and with early stopping the done beams are completed. -/
structure Followed (engine : BeamSearchEngine K) (prompt : List UInt32) (state : SearchState K) : Prop where
  traced : ∀ beam ∈ state.completed ++ state.beams, engine.Traced prompt beam
  done : ∀ beam ∈ state.completed, beam.isDone = true
  early : engine.config.earlyStopping = true → ∀ beam ∈ state.beams, beam.isDone = false

omit [IsStrictOrderedRing K] in
theorem followed_start (engine : BeamSearchEngine K) (prompt : List UInt32) : engine.Followed prompt (start prompt) where
  traced := by
    intro beam member
    rw [mem_singleton.mp member]
    exact engine.traced_start prompt
  done := nofun
  early _ := by
    intro beam member
    rw [mem_singleton.mp member]

theorem Followed.expanded (positive : 0 < engine.config.noRepeatNgramSize) (followed : engine.Followed prompt state)
    (allowed : ∀ beam ∈ live state, engine.Allowed step beam) (member : child ∈ engine.expanded step state) :
    engine.Traced prompt child := by
  obtain ⟨beam, inside, member⟩ := mem_flatMap.mp member
  have traced := followed.traced beam (mem_append_right _ (mem_of_mem_filter inside))
  exact traced.child_traced positive (allowed beam inside) member

omit [IsStrictOrderedRing K] in
theorem mem_completedAfter (member : beam ∈ engine.completedAfter step state) : beam ∈ state.completed ∨
    beam ∈ engine.expanded step state ∧ engine.finishes beam = true ∨ beam ∈ state.beams ∧ beam.isDone = true := by
  rw [completedAfter, mem_append, mem_append, mem_reverse, mem_filter, mem_filter] at member
  exact or_assoc.mp member

omit [IsStrictOrderedRing K] in
theorem mem_pruned (member : beam ∈ engine.pruneBeams (engine.candidates step state) engine.width) :
    beam ∈ engine.expanded step state ∧ engine.finishes beam = false := by
  have inside := (@StableSort.mem_sort _ _ _ _ engine.sorting).mp (mem_of_mem_take member)
  obtain ⟨expanded, open'⟩ := mem_filter.mp inside
  exact ⟨expanded, by simpa using open'⟩

variable (positive : 0 < engine.config.noRepeatNgramSize)
include positive

variable (followed : engine.Followed prompt state)
include followed

variable (allowed : ∀ beam ∈ live state, engine.Allowed step beam)
include allowed

/-- What holds of the beams after a step, whichever beams go on. -/
theorem Followed.after : (∀ beam ∈ engine.completedAfter step state, engine.Traced prompt beam) ∧
      ∀ beam ∈ engine.completedAfter step state, beam.isDone = true := by
  constructor
  · intro beam member
    rcases mem_completedAfter member with old | ⟨new, _⟩ | ⟨before, _⟩
    · exact followed.traced beam (mem_append_left _ old)
    · exact followed.expanded positive allowed new
    · exact followed.traced beam (mem_append_right _ before)
  · intro beam member
    rcases mem_completedAfter member with old | ⟨_, finished⟩ | ⟨_, done⟩
    · exact followed.done beam old
    · exact (Bool.and_eq_true_iff.mp finished).2
    · exact done

theorem Followed.pruned : engine.Followed prompt (engine.pruned step state) := by
  obtain ⟨traced, done⟩ := followed.after positive allowed
  refine ⟨fun beam member => ?_, done, fun early beam member => ?_⟩
  · rcases mem_append.mp member with completed | inside
    · exact traced beam completed
    · exact followed.expanded positive allowed (mem_pruned inside).1
  · have open' := (mem_pruned member).2
    rwa [finishes, early, Bool.true_and] at open'

theorem Followed.stuck (steps : Nat) :
    engine.Followed prompt ⟨live state, engine.completedAfter step state, steps⟩ := by
  obtain ⟨traced, done⟩ := followed.after positive allowed
  refine ⟨fun beam member => ?_, done, fun _ beam member => ?_⟩
  · rcases mem_append.mp member with completed | inside
    · exact traced beam completed
    · exact followed.traced beam (mem_append_right _ (mem_of_mem_filter inside))
  · have open' := (mem_filter.mp member).2
    simpa using open'

end Followed

section Kept

/-- The number of beams with finite log-probabilities. -/
def kept (state : SearchState K) : Nat := (finites (state.completed ++ state.beams)).length

omit [IsStrictOrderedRing K] [LinearOrder K] [Field K] in
theorem beams_perm (state : SearchState K) : (state.beams.filter Beam.isDone ++ live state).Perm state.beams := by
  have split := filter_append_perm Beam.isDone state.beams
  exact split

omit [IsStrictOrderedRing K] [LinearOrder K] [Field K] in
theorem kept_eq (state : SearchState K) : kept state = (finites state.completed).length +
    (finites (state.beams.filter Beam.isDone)).length + (finites (live state)).length := by
  have split := (finites_perm (beams_perm state)).length_eq
  rw [finites_append, length_append] at split
  rw [kept, finites_append, length_append, ← split, Nat.add_assoc]

omit [IsStrictOrderedRing K] in
theorem expanded_perm (engine : BeamSearchEngine K) (step : Nat) (state : SearchState K) :
    ((engine.expanded step state).filter engine.finishes ++ engine.candidates step state).Perm
      (engine.expanded step state) :=
  filter_append_perm engine.finishes (engine.expanded step state)

omit [IsStrictOrderedRing K] in
theorem finites_expanded (engine : BeamSearchEngine K) (step : Nat) (state : SearchState K) :
    finites (engine.expanded step state) =
      (finites (live state)).flatMap fun beam => finites (engine.children step beam) := by
  rw [expanded, finites, filter_flatMap, finites]
  exact (flatMap_filter fun beam _ lost => finites_children_lost lost).symm

theorem length_finites_expanded (allowed : ∀ beam ∈ live state, engine.Allowed step beam) :
    (finites (engine.expanded step state)).length =
      ((finites (live state)).map fun beam => min engine.width (engine.allowed step beam).length).sum := by
  rw [finites_expanded, length_flatMap]
  congr 1
  apply map_congr_left
  intro beam member
  obtain ⟨inside, finite⟩ := mem_filter.mp member
  exact length_finites_children finite (allowed beam inside)

/-- Each finite live beam has a finite child. -/
theorem live_le_expanded (allowed : ∀ beam ∈ live state, engine.Allowed step beam) :
    (finites (live state)).length ≤ (finites (engine.expanded step state)).length := by
  rw [length_finites_expanded allowed]
  apply length_le_sum
  intro beam member
  have some := length_pos_iff.mpr (allowed_ne_nil (allowed beam (mem_of_mem_filter member)))
  have wide := engine.width_pos
  omega

omit [IsStrictOrderedRing K] in
theorem score_number {beams : List (Beam K)} (traced : ∀ beam ∈ beams, engine.Traced prompt beam) :
    ∀ beam ∈ beams, engine.score beam ≠ .nan :=
  fun beam member => LogProb.div_number (traced beam member).number _

omit [IsStrictOrderedRing K] in
theorem isFinite_score (engine : BeamSearchEngine K) (beam : Beam K) :
    (engine.score beam).isFinite = beam.logProb.isFinite := LogProb.isFinite_div _ _

omit [IsStrictOrderedRing K] in
/-- Finite beams are sorted before the other ones. -/
theorem length_finites_take (traced : ∀ beam ∈ beams, engine.Traced prompt beam) (count : Nat) :
    (finites ((engine.sortByScore beams).take count)).length = min count (finites beams).length := by
  have upward := descending_upward (score_number traced)
  simp only [isFinite_score] at upward
  exact engine.sorting.length_filter_sort_take (descending_ranks (score_number traced)) upward count

omit [IsStrictOrderedRing K] in
theorem finites_take_perm (traced : ∀ beam ∈ beams, engine.Traced prompt beam) {count : Nat}
    (few : (finites beams).length ≤ count) : (finites ((engine.sortByScore beams).take count)).Perm (finites beams) := by
  have upward := descending_upward (score_number traced)
  simp only [isFinite_score] at upward
  exact engine.sorting.filter_sort_take_perm (descending_ranks (score_number traced)) upward few

theorem candidates_traced (positive : 0 < engine.config.noRepeatNgramSize) (followed : engine.Followed prompt state)
    (allowed : ∀ beam ∈ live state, engine.Allowed step beam) :
    ∀ beam ∈ engine.candidates step state, engine.Traced prompt beam :=
  fun _ member => followed.expanded positive allowed (mem_of_mem_filter member)

omit [IsStrictOrderedRing K] in
theorem length_finites_completedAfter (engine : BeamSearchEngine K) (step : Nat) (state : SearchState K) :
    (finites (engine.completedAfter step state)).length = (finites state.completed).length +
      (finites ((engine.expanded step state).filter engine.finishes)).length +
        (finites (state.beams.filter Beam.isDone)).length := by
  rw [completedAfter, finites_append, finites_append, length_append, length_append,
    (finites_perm (reverse_perm (state.beams.filter Beam.isDone))).length_eq]

omit [IsStrictOrderedRing K] in
theorem length_finites_split (engine : BeamSearchEngine K) (step : Nat) (state : SearchState K) :
    (finites ((engine.expanded step state).filter engine.finishes)).length +
      (finites (engine.candidates step state)).length = (finites (engine.expanded step state)).length := by
  rw [← length_append, ← finites_append]
  exact (finites_perm (engine.expanded_perm step state)).length_eq

/-- A step loses finite beams only beyond the width. -/
theorem kept_pruned (positive : 0 < engine.config.noRepeatNgramSize) (followed : engine.Followed prompt state)
    (allowed : ∀ beam ∈ live state, engine.Allowed step beam) : min engine.width
      ((finites state.completed).length + (finites (state.beams.filter Beam.isDone)).length +
        (finites (engine.expanded step state)).length) ≤ kept (engine.pruned step state) := by
  have pruned := length_finites_take (candidates_traced positive followed allowed) engine.width
  have split := engine.length_finites_split step state
  have completed := engine.length_finites_completedAfter step state
  rw [kept, finites_append, length_append]
  change _ ≤ (finites (engine.completedAfter step state)).length +
    (finites ((engine.sortByScore (engine.candidates step state)).take engine.width)).length
  omega

/-- A state with as many finite beams as the width keeps them. -/
theorem saturated_pruned (positive : 0 < engine.config.noRepeatNgramSize) (followed : engine.Followed prompt state)
    (allowed : ∀ beam ∈ live state, engine.Allowed step beam) (enough : engine.width ≤ kept state) :
    engine.width ≤ kept (engine.pruned step state) := by
  have bound := kept_pruned positive followed allowed
  have more := live_le_expanded allowed
  rw [kept_eq] at enough
  omega

omit [IsStrictOrderedRing K] in
theorem kept_stuck (none : engine.candidates step state = []) (steps : Nat) :
    kept ⟨live state, engine.completedAfter step state, steps⟩ = (finites state.completed).length +
      (finites (engine.expanded step state)).length + (finites (state.beams.filter Beam.isDone)).length +
        (finites (live state)).length := by
  have split := engine.length_finites_split step state
  have completed := engine.length_finites_completedAfter step state
  rw [none] at split
  rw [kept, finites_append, length_append]
  change (finites (engine.completedAfter step state)).length + (finites (live state)).length = _
  have empty : (finites ([] : List (Beam K))).length = 0 := rfl
  omega

end Kept

end BeamSearchEngine

end Pictor
