import Mathlib.Analysis.SpecialFunctions.Exp
import Pictor.Construction.Decoding.Sampling
import Pictor.Library.BitLinear

namespace Pictor.Sampling
open BitLinear List

section Generator

theorem nextU64_linear : Linear nextU64 := by
  have shifted (n : Nat) : Linear fun x : BitVec 64 => x ^^^ x <<< n := linear_id.xor (linear_shiftLeft n)
  have shifted' (n : Nat) : Linear fun x : BitVec 64 => x ^^^ x >>> n := linear_id.xor (linear_ushiftRight n)
  exact (shifted 17).comp ((shifted' 7).comp (shifted 13))

/-- The coefficients of a polynomial of the generator, from the constant on. -/
def coefficients (bits : Nat) : List Bool := (List.range 64).map bits.testBit

/-- A polynomial of the generator that undoes a linear map on the single bits undoes it on every word. -/
theorem undone {f : BitVec 64 → BitVec 64} (linear : Linear f) {bits : Nat}
    (single : ∀ i < 64, polynomial nextU64 (coefficients bits) (f (BitVec.twoPow 64 i)) = BitVec.twoPow 64 i)
    {x y : BitVec 64} (same : f x = f y) : x = y := by
  have inverse := ((nextU64_linear.polynomial (coefficients bits)).comp linear).eq_of_single linear_id single
  exact (inverse x).symm.trans ((congrArg (polynomial nextU64 (coefficients bits)) same).trans (inverse y))

variable {x : BitVec 64}

/-- Zero is the only state that goes to zero. -/
theorem nextU64_zero (zero : nextU64 x = 0) : x = 0 :=
  @undone nextU64 nextU64_linear 0x809f6a51ac489900 (by decide +kernel) x 0 (zero.trans nextU64_linear.map_zero.symm)

/-- Zero is the only state that the generator keeps. -/
theorem nextU64_fixed (fixed : nextU64 x = x) : x = 0 := by
  have linear : Linear fun x => nextU64 x ^^^ x := nextU64_linear.xor linear_id
  refine @undone _ linear 0xff15b39ec870ee00 (by decide +kernel) x 0 ?_
  rw [fixed, BitVec.xor_self]
  exact nextU64_linear.map_zero.symm

end Generator

section Specification

variable {F : Type} [Field F] [LinearOrder F]

/-- The probability of a number among numbers, after the largest one is taken off. -/
def share (exp : F → F) (values : List F) (value : F) : F :=
  let peak := (maxVal values).getD 0
  exp (value - peak) / (values.map fun other => exp (other - peak)).sum

/-- The indices of the logits, the highest first. -/
structure Ranking (logits : List F) (ranked : List Nat) : Prop where
  perm : ranked.Perm (List.range logits.length)
  descending : ranked.Pairwise fun i j => logits.getD j 0 ≤ logits.getD i 0

/-- The highest indices. -/
def candidates (topK : Nat) (ranked : List Nat) : List Nat :=
  if 0 < topK ∧ topK < ranked.length then ranked.take topK else ranked

/-- The probability of the first candidates. -/
def cumulative (exp : F → F) (scaled : Nat → F) (kept : List Nat) (count : Nat) : F :=
  ((kept.take count).map fun index => share exp (kept.map scaled) (scaled index)).sum

/-- An index is a candidate of some ranking, and inside every prefix of the candidates that exceeds the threshold. -/
def Admissible (exp : F → F) (params : SamplingParams F) (logits : List F) (index : Nat) : Prop :=
  ∃ ranked, Ranking logits ranked ∧ index ∈ candidates params.topK ranked ∧ ∀ count, 0 < count →
    params.topP < cumulative exp (fun i => logits.getD i 0 / params.temperature) (candidates params.topK ranked) count →
    index ∈ (candidates params.topK ranked).take count

end Specification

section Shares

variable {F : Type} [Field F] [LinearOrder F]

omit [Field F] in
theorem maxVal_from (values : List F) (first : F) :
    ∃ peak, values.foldl (fun found value => some (found.elim value (max · value))) (some first) = some peak ∧
      peak ∈ first :: values ∧ ∀ value ∈ first :: values, value ≤ peak := by
  induction values generalizing first with
  | nil => exact ⟨first, rfl, mem_cons_self, fun value member => (mem_singleton.mp member).le⟩
  | cons value values ih =>
      obtain ⟨peak, found, member, above⟩ := ih (max first value)
      refine ⟨peak, found, ?_, fun other inside => ?_⟩
      · rcases mem_cons.mp member with rfl | later
        · rcases max_choice first value with same | same
          · rw [same]
            exact mem_cons_self
          · rw [same]
            exact mem_cons_of_mem _ mem_cons_self
        · exact mem_cons_of_mem _ (mem_cons_of_mem _ later)
      · have bound := above _ mem_cons_self
        rcases mem_cons.mp inside with rfl | inside
        · exact (le_max_left _ _).trans bound
        · rcases mem_cons.mp inside with rfl | inside
          · exact (le_max_right _ _).trans bound
          · exact above other (mem_cons_of_mem _ inside)

omit [Field F] in
/-- The largest number is the one that stands above all. -/
theorem maxVal_eq {peak : F} : maxVal values = some peak ↔ peak ∈ values ∧ ∀ value ∈ values, value ≤ peak := by
  constructor
  · intro found
    cases values with
    | nil => cases found
    | cons first values =>
        obtain ⟨peak', found', holds⟩ := maxVal_from values first
        rwa [Option.some.inj (found.symm.trans found')]
  · rintro ⟨member, above⟩
    cases values with
    | nil => cases member
    | cons first values =>
        obtain ⟨peak', found', member', above'⟩ := maxVal_from values first
        exact found'.trans (congrArg some (le_antisymm (above _ member') (above' _ member)))

variable {values' : List F} {buf : List (Nat × F)}

omit [Field F] in
theorem maxVal_perm {values : List F} (perm : values.Perm values') : maxVal values = maxVal values' := by
  cases found : maxVal values' with
  | none =>
      cases values' with
      | nil => rw [perm.eq_nil]; rfl
      | cons first rest =>
          obtain ⟨peak, found', _⟩ := maxVal_from rest first
          cases found.symm.trans found'
  | some peak =>
      obtain ⟨member, above⟩ := maxVal_eq.mp found
      exact maxVal_eq.mpr ⟨perm.mem_iff.mpr member, fun value inside => above value (perm.mem_iff.mp inside)⟩

theorem share_perm {exp : F → F} {values : List F} (perm : values.Perm values') :
    share exp values = share exp values' := by
  funext value
  rw [share, share, maxVal_perm perm, (perm.map _).sum_eq]

variable [IsStrictOrderedRing F] {exp : F → F} {values : List F}

variable (positive : ∀ x, 0 < exp x)
include positive

theorem mass_pos (filled : values ≠ []) (shift : F) : 0 < (values.map fun other => exp (other - shift)).sum :=
  sum_pos _ (forall_mem_map.mpr fun _ _ => positive _) (by rwa [ne_eq, map_eq_nil_iff])

theorem share_pos (filled : values ≠ []) (value : F) :
    0 < share exp values value := div_pos (positive _) (mass_pos positive filled _)

/-- The shares add up to one. -/
theorem sum_share (filled : values ≠ []) : (values.map (share exp values)).sum = 1 := by
  have mass := mass_pos positive filled ((maxVal values).getD 0)
  have split : values.map (share exp values) =
      (values.map fun other => exp (other - (maxVal values).getD 0)).map
        (· / (values.map fun other => exp (other - (maxVal values).getD 0)).sum) := by
    rw [map_map]
    rfl
  rw [split]
  simp only [div_eq_mul_inv]
  rw [sum_map_mul_right, map_id', mul_inv_cancel₀ (ne_of_gt mass)]

/-- Shares stand in the order of the numbers. -/
theorem share_le (grows : StrictMono exp) {values : List F} (filled : values ≠ []) (a b : F) :
    share exp values a ≤ share exp values b ↔ a ≤ b := by
  rw [share, share, div_le_div_iff_of_pos_right (mass_pos positive filled _), grows.le_iff_le, sub_le_sub_iff_right]

end Shares

section Filters

variable {F : Type} [Field F] [LinearOrder F] (selection : PartialSelection) (sorting : StableSort)
  {key : Nat → F} {kept : List Nat}

/-- The indices with their numbers. -/
def paired (key : Nat → F) (indices : List Nat) : List (Nat × F) := indices.map fun index => (index, key index)

omit [Field F] [LinearOrder F] in
theorem map_fst_paired (key : Nat → F) (indices : List Nat) : (paired key indices).map Prod.fst = indices := by
  rw [paired, map_map]
  exact map_id _

omit [Field F] [LinearOrder F] in
theorem map_snd_paired (key : Nat → F) (indices : List Nat) : (paired key indices).map Prod.snd = indices.map key := by
  rw [paired, map_map]
  rfl

omit [Field F] [LinearOrder F] in
/-- A rearrangement of pairs is the pairs of rearranged indices. -/
theorem paired_perm {indices : List Nat} (perm : buf.Perm (paired key indices)) :
    buf = paired key (buf.map Prod.fst) ∧ (buf.map Prod.fst).Perm indices := by
  have each : ∀ pair ∈ buf, pair = (pair.1, key pair.1) := by
    intro pair member
    obtain ⟨index, _, rfl⟩ := mem_map.mp (perm.mem_iff.mp member)
    rfl
  constructor
  · rw [paired, map_map]
    exact (map_id _).symm.trans (map_congr_left each)
  · exact map_fst_paired key indices ▸ perm.map Prod.fst

omit [LinearOrder F] in
/-- The scaled logits are indices with their numbers. -/
theorem scaled_paired (logits : List F) (temperature : F) :
    (logits.zipIdx.map fun logit => (logit.2, logit.1 / temperature)) =
      paired (fun i => logits.getD i 0 / temperature) (List.range logits.length) := by
  refine ext_getElem (by simp [paired]) fun i inside inside' => ?_
  have bound : i < logits.length := by rwa [length_map, length_zipIdx] at inside
  simp [paired, bound]

omit [Field F] in
theorem ranks_key (key : Item → F) (items : List Item) : Ranks (fun a b => decide (key a ≤ key b)) items where
  trans _ _ _ _ _ _ lower lower' := decide_eq_true ((of_decide_eq_true lower).trans (of_decide_eq_true lower'))
  total a _ b _ := (le_total (key a) (key b)).imp decide_eq_true decide_eq_true

omit [Field F] in
theorem ranks_descending (key : Item → F) (items : List Item) : Ranks (fun a b => decide (key b ≤ key a)) items where
  trans _ _ _ _ _ _ lower lower' := decide_eq_true ((of_decide_eq_true lower').trans (of_decide_eq_true lower))
  total a _ b _ := (le_total (key b) (key a)).imp decide_eq_true decide_eq_true

omit [Field F] in
/-- A descending sort puts no item before a greater one. -/
theorem sort_descending {Item : Type} (key : Item → F) (items : List Item) :
    (sorting.sort (fun a b => decide (key b ≤ key a)) items).Pairwise fun a b => key b ≤ key a :=
  (sorting.sorted (ranks_descending key items)).imp of_decide_eq_true

omit [Field F] in
/-- The filter keeps the highest candidates, as many as asked for. -/
theorem filterTopK_parts (topK : Nat) (indices : List Nat) :
    ∃ kept dropped, filterTopK selection topK (paired key indices) = paired key kept ∧
      (dropped ++ kept).Perm indices ∧ (∀ d ∈ dropped, ∀ k ∈ kept, key d ≤ key k) ∧
      kept.length = if 0 < topK ∧ topK < indices.length then topK else indices.length := by
  have same : (paired key indices).length = indices.length := length_map _
  rw [filterTopK, same]
  by_cases cuts : 0 < topK ∧ topK < indices.length
  · rw [if_pos cuts]
    dsimp only
    have perm := selection.perm (fun a b : Nat × F => decide (a.2 ≤ b.2)) (indices.length - topK) (paired key indices)
    obtain ⟨front, pivot, back, whole, long, below, above⟩ := selection.parted (ranks_key Prod.snd (paired key indices))
      (show indices.length - topK < (paired key indices).length by omega)
    rw [whole] at perm ⊢
    obtain ⟨shape, perm'⟩ := paired_perm perm
    rw [drop_left' long]
    have parts : front ++ pivot :: back = paired key (front.map Prod.fst) ++ paired key ((pivot :: back).map Prod.fst) := by
      rw [shape, map_append, paired, map_append]
      rfl
    obtain ⟨frontShape, backShape⟩ := append_inj parts (by rw [paired, length_map, length_map])
    refine ⟨(pivot :: back).map Prod.fst, front.map Prod.fst, backShape, map_append ▸ perm', ?_, ?_⟩
    · rw [forall_mem_map]
      intro a early
      rw [forall_mem_map]
      intro b late
      have low : ∀ pair ∈ front, pair.2 = key pair.1 := fun pair member => by
        obtain ⟨_, _, rfl⟩ := mem_map.mp (frontShape ▸ member)
        rfl
      have high : ∀ pair ∈ pivot :: back, pair.2 = key pair.1 := fun pair member => by
        obtain ⟨_, _, rfl⟩ := mem_map.mp (backShape ▸ member)
        rfl
      rw [← low a early, ← high b late]
      rcases mem_cons.mp late with rfl | late
      · exact of_decide_eq_true (below a early)
      · exact (of_decide_eq_true (below a early)).trans (of_decide_eq_true (above b late))
    · have count := perm'.length_eq
      rw [length_map, length_append, long] at count
      rw [length_map, if_pos cuts]
      omega
  · rw [if_neg cuts]
    exact ⟨indices, [], rfl, List.Perm.refl _, fun _ member => absurd member not_mem_nil, (if_neg cuts).symm⟩

/-- The softmax of pairs holds the shares of their numbers. -/
theorem softmax_paired (exp : F → F) (filled : kept ≠ []) :
    softmax exp (paired key kept) = paired (fun index => share exp (kept.map key) (key index)) kept := by
  rw [softmax, map_snd_paired]
  cases found : maxVal (kept.map key) with
  | none =>
      obtain ⟨first, rest, rfl⟩ := exists_cons_of_ne_nil filled
      obtain ⟨peak, found', _⟩ := maxVal_from (rest.map key) (key first)
      cases found.symm.trans found'
  | some peak =>
      change normalize ((paired key kept).map fun pair => (pair.1, exp (pair.2 - peak))) = _
      rw [normalize, paired, paired, map_map, map_map, map_map, map_map]
      refine map_congr_left fun index _ => ?_
      rw [share, found, map_map]
      rfl

/-- The cut-off stands before the end of every prefix that exceeds the threshold. -/
theorem cutoffFrom_within {topP : F} {cum : F} {count : Nat} (some_ : 0 < count) (inside : count ≤ buf.length)
    (exceeds : topP < cum + ((buf.take count).map Prod.snd).sum) :
    ∃ cutoff, cutoffFrom topP cum buf = some cutoff ∧ cutoff < count := by
  induction buf generalizing cum count with
  | nil => exact absurd (Nat.lt_of_lt_of_le some_ inside) (Nat.lt_irrefl 0)
  | cons pair rest ih =>
      rw [cutoffFrom]
      by_cases first : topP < cum + pair.2
      · exact ⟨0, if_pos first, some_⟩
      · rw [if_neg first]
        obtain ⟨count, rfl⟩ := Nat.exists_eq_add_one.mpr some_
        rw [take_succ_cons, map_cons, sum_cons, ← add_assoc] at exceeds
        cases count with
        | zero => exact absurd (by simpa using exceeds) first
        | succ count =>
            obtain ⟨cutoff, found, below⟩ := ih (Nat.succ_pos count) (Nat.le_of_succ_le_succ inside) exceeds
            exact ⟨cutoff + 1, congrArg (Option.map (· + 1)) found, Nat.succ_lt_succ below⟩

omit [LinearOrder F] in
theorem map_fst_normalize (buf : List (Nat × F)) : (normalize buf).map Prod.fst = buf.map Prod.fst := by
  rw [normalize, map_map]
  rfl

variable [IsStrictOrderedRing F] {exp : F → F} {Item : Type}

/-- The shares of some of the candidates add up to one at most. -/
theorem cumulative_le_one (positive : ∀ x, 0 < exp x) (filled : kept ≠ []) (count : Nat) :
    cumulative exp key kept count ≤ 1 := by
  have some_ : kept.map key ≠ [] := by rwa [ne_eq, map_eq_nil_iff]
  have whole := sum_share positive some_
  rw [map_map, ← take_append_drop count kept, map_append, List.sum_append,
    take_append_drop] at whole
  have rest : 0 ≤ ((kept.drop count).map (share exp (kept.map key) ∘ key)).sum :=
    sum_nonneg (forall_mem_map.mpr fun index _ => (share_pos positive some_ (key index)).le)
  exact (le_add_of_nonneg_right rest).trans whole.le

/-- What is left after the threshold is inside every prefix of the sorted candidates that exceeds it. -/
theorem filterTopP_prefixes (positive : ∀ x, 0 < exp x) (grows : StrictMono exp) (topP : F) (filled : kept ≠ []) :
    ∃ order, order.Perm kept ∧ (order.Pairwise fun i j => key j ≤ key i) ∧
      let drawn := (filterTopP sorting topP (paired (fun index => share exp (kept.map key) (key index)) kept)).map Prod.fst
      drawn ≠ [] ∧ ∀ index ∈ drawn, index ∈ order ∧
        ∀ count, 0 < count → topP < cumulative exp key order count → index ∈ order.take count := by
  have some_ : kept.map key ≠ [] := by rwa [ne_eq, map_eq_nil_iff]
  rw [filterTopP]
  by_cases cuts : topP < 1
  · rw [if_pos cuts]
    dsimp only
    generalize held : sorting.sort _ _ = sorted
    have perm := held ▸ sorting.perm _ (paired (fun index => share exp (kept.map key) (key index)) kept)
    obtain ⟨shape, perm'⟩ := paired_perm perm
    generalize sorted.map Prod.fst = order at shape perm'
    have filled' : order ≠ [] := fun none => filled (nil_perm.mp (none ▸ perm'))
    rw [map_fst_normalize, shape, paired, ← map_take, map_map]
    refine ⟨order, perm', ?_, ?_, fun index member => ?_⟩
    · have descends := held ▸ sort_descending sorting Prod.snd
        (paired (fun index => share exp (kept.map key) (key index)) kept)
      rw [shape, paired, pairwise_map] at descends
      exact descends.imp fun {i j} below => (share_le positive grows some_ _ _).mp below
    · simp [filled']
    · change index ∈ ((order.take _).map id) at member
      rw [map_id] at member
      refine ⟨mem_of_mem_take member, fun count positive' exceeds => ?_⟩
      have long : (paired (fun index => share exp (kept.map key) (key index)) order).length = order.length :=
        length_map _
      rcases Nat.le_total count order.length with inside | beyond
      · have exceeds' : topP < 0 +
            (((paired (fun index => share exp (kept.map key) (key index)) order).take count).map Prod.snd).sum := by
          rw [zero_add, paired, ← map_take, map_map]
          rw [cumulative, share_perm (perm'.map key)] at exceeds
          exact exceeds
        obtain ⟨cutoff, found, below⟩ := cutoffFrom_within positive' (long.symm ▸ inside) exceeds'
        rw [← paired, found] at member
        exact take_subset_take_left order below member
      · rw [take_of_length_le beyond]
        exact mem_of_mem_take member
  · rw [if_neg cuts, map_fst_paired]
    have perm := sorting.perm (fun i j => decide (key j ≤ key i)) kept
    refine ⟨_, perm, sort_descending sorting key kept, filled, fun index member =>
      ⟨perm.mem_iff.mpr member, fun count _ exceeds => absurd exceeds (not_lt.mpr ?_)⟩⟩
    have filled' : sorting.sort (fun i j => decide (key j ≤ key i)) kept ≠ [] := fun none =>
      filled (nil_perm.mp (none ▸ perm))
    exact (cumulative_le_one positive filled' count).trans (not_lt.mp cuts)

end Filters

section Tokens

variable {F : Type} [Field F] [LinearOrder F] (selection : PartialSelection) (sorting : StableSort)

omit [Field F] in
theorem argmax_from (rest : List (F × Nat)) (first : F × Nat) : ∃ best, rest.foldl (fun found value =>
        match found with
        | none => some value
        | some best => if value.1 < best.1 then some best else some value) (some first) = some best ∧
      best ∈ first :: rest ∧ ∀ value ∈ first :: rest, value.1 ≤ best.1 := by
  induction rest generalizing first with
  | nil => exact ⟨first, rfl, mem_cons_self, fun value member => by rw [mem_singleton.mp member]⟩
  | cons value rest ih =>
      rw [foldl_cons]
      dsimp only
      by_cases lower : value.1 < first.1
      · rw [if_pos lower]
        obtain ⟨best, found, member, above⟩ := ih first
        refine ⟨best, found, ?_, forall_mem_cons.mpr ⟨above _ mem_cons_self, forall_mem_cons.mpr
          ⟨lower.le.trans (above _ mem_cons_self), fun other late => above _ (mem_cons_of_mem _ late)⟩⟩⟩
        rcases mem_cons.mp member with rfl | late
        · exact mem_cons_self
        · exact mem_cons_of_mem _ (mem_cons_of_mem _ late)
      · rw [if_neg lower]
        obtain ⟨best, found, member, above⟩ := ih value
        exact ⟨best, found, mem_cons_of_mem _ member,
          forall_mem_cons.mpr ⟨(not_lt.mp lower).trans (above _ mem_cons_self), above⟩⟩

omit [Field F] in
/-- The greedy choice is an index of a largest logit. -/
theorem argmax_best [Zero F] {logits : List F} (filled : logits ≠ []) :
    argmax logits < logits.length ∧ ∀ i, i < logits.length → logits.getD i 0 ≤ logits.getD (argmax logits) 0 := by
  obtain ⟨first, rest, shape⟩ := exists_cons_of_ne_nil (zipIdx_eq_nil_iff.not.mpr filled)
  obtain ⟨best, found, member, above⟩ := argmax_from rest first
  rw [← shape] at member above
  have chosen : argmax logits = best.2 := by
    rw [argmax, shape, foldl_cons]
    exact congrArg (fun found : Option (F × Nat) => (found.map Prod.snd).getD 0) found
  have place := mem_zipIdx_iff_getElem?.mp member
  rw [chosen]
  refine ⟨(List.getElem?_eq_some_iff.mp place).1, fun i inside => ?_⟩
  have bound := above (logits[i], i) (mem_zipIdx_iff_getElem?.mpr (getElem?_eq_getElem inside))
  rwa [getD_eq_getElem?_getD, getD_eq_getElem?_getD, place, getElem?_eq_getElem inside]

/-- A draw gives an index of the buffer. -/
theorem draw_mem (randVal : F) (filled : buf ≠ []) : ∃ index ∈ buf.map Prod.fst, draw randVal buf = some index := by
  have drawn (cum : F) (buf : List (Nat × F)) (index : Nat) (found : drawFrom randVal cum buf = some index) :
      index ∈ buf.map Prod.fst := by
    induction buf generalizing cum with
    | nil => cases found
    | cons pair rest ih =>
        rw [drawFrom] at found
        by_cases reached : randVal ≤ cum + pair.2
        · rw [if_pos reached] at found
          exact Option.some.inj found ▸ mem_cons_self
        · rw [if_neg reached] at found
          exact mem_cons_of_mem _ (ih _ found)
  obtain ⟨pair, rest, rfl⟩ := exists_cons_of_ne_nil filled
  rw [draw]
  cases found : drawFrom randVal 0 (pair :: rest) with
  | none => exact ⟨pair.1, mem_cons_self, rfl⟩
  | some index => exact ⟨index, drawn 0 _ index found, rfl⟩

variable [IsStrictOrderedRing F] {exp : F → F} {params : SamplingParams F} {logits : List F}

/-- Each index that can be drawn is admissible, and there is one. -/
theorem probsBuf_admissible (positive : ∀ x, 0 < exp x) (grows : StrictMono exp) (warm : 0 < params.temperature)
    (filled : logits ≠ []) : probsBuf selection sorting exp params logits ≠ [] ∧
      ∀ index ∈ (probsBuf selection sorting exp params logits).map Prod.fst, Admissible exp params logits index := by
  rw [probsBuf, scaled_paired]
  generalize scaled : (fun i => logits.getD i 0 / params.temperature) = key
  obtain ⟨kept, dropped, shape, perm, below, count⟩ :=
    @filterTopK_parts F _ selection key params.topK (List.range logits.length)
  rw [length_range] at count
  have size : 0 < logits.length := length_pos_iff.mpr filled
  have filled' : kept ≠ [] := by
    rintro rfl
    split at count <;> simp at count <;> omega
  rw [shape, softmax_paired exp filled']
  obtain ⟨order, perm', descends, drawn, each⟩ := @filterTopP_prefixes F _ _ sorting key kept _ exp positive grows
    params.topP filled'
  refine ⟨fun none => drawn (none ▸ rfl), fun index member => ?_⟩
  obtain ⟨chosen, prefixes⟩ := each index member
  have long := perm.length_eq
  rw [length_append, length_range] at long
  have ordered : ∀ i j, key j ≤ key i → logits.getD j 0 ≤ logits.getD i 0 := fun i j lower => by
    rw [← scaled] at lower
    exact (div_le_div_iff_of_pos_right warm).mp lower
  have rest := sorting.perm (fun i j => decide (key j ≤ key i)) dropped
  have first : candidates params.topK (order ++ sorting.sort (fun i j => decide (key j ≤ key i)) dropped) = order := by
    rw [candidates, length_append, perm'.length_eq, rest.length_eq, Nat.add_comm, long]
    by_cases cuts : 0 < params.topK ∧ params.topK < logits.length
    · rw [if_pos cuts] at count
      rw [if_pos cuts, take_left' (perm'.length_eq.trans count)]
    · rw [if_neg cuts] at count
      have none : dropped = [] := length_eq_zero_iff.mp (by omega)
      rw [none] at rest ⊢
      rw [if_neg cuts, perm_nil.mp rest, append_nil]
  refine ⟨order ++ sorting.sort (fun i j => decide (key j ≤ key i)) dropped, ⟨?_, ?_⟩, first.symm ▸ chosen, ?_⟩
  · exact ((perm'.append rest).trans perm_append_comm).trans perm
  · refine pairwise_append.mpr ⟨descends.imp (ordered _ _), (sort_descending sorting key dropped).imp (ordered _ _),
      fun i high j low => ordered i j (below j (rest.mem_iff.mp low) i (perm'.mem_iff.mp high))⟩
  · rw [first, scaled]
    exact prefixes

omit [IsStrictOrderedRing F] in
/-- An index of a largest logit is admissible. -/
theorem admissible_best {index : Nat} (inside : index < logits.length)
    (best : ∀ i, i < logits.length → logits.getD i 0 ≤ logits.getD index 0) : Admissible exp params logits index := by
  have member : index ∈ List.range logits.length := mem_range.mpr inside
  have rest := StableSort.merging.perm (fun i j => decide (logits.getD j 0 ≤ logits.getD i 0))
    ((List.range logits.length).erase index)
  generalize held : StableSort.merging.sort _ _ = others at rest
  have first : ∃ behind, candidates params.topK (index :: others) = index :: behind := by
    rw [candidates]
    by_cases cuts : 0 < params.topK ∧ params.topK < (index :: others).length
    · obtain ⟨more, same⟩ := Nat.exists_eq_add_one.mpr cuts.1
      exact ⟨others.take more, by rw [if_pos cuts, same, take_succ_cons]⟩
    · exact ⟨others, if_neg cuts⟩
  obtain ⟨behind, first⟩ := first
  refine ⟨index :: others, ⟨(rest.cons index).trans (perm_cons_erase member).symm, pairwise_cons.mpr
    ⟨fun other late => ?_, held ▸ sort_descending _ (fun i => logits.getD i 0) _⟩⟩, first ▸ mem_cons_self,
    fun count some_ _ => ?_⟩
  · exact best other (mem_range.mp (mem_of_mem_erase (rest.mem_iff.mp late)))
  · obtain ⟨more, rfl⟩ := Nat.exists_eq_add_one.mpr some_
    rw [first, take_succ_cons]
    exact mem_cons_self

/-- A call returns an admissible token. -/
theorem sample_admissible (positive : ∀ x, 0 < exp x) (grows : StrictMono exp) (sampler : Sampler F)
    (warm : 0 < sampler.params.temperature) (filled : logits ≠ []) : ∃ index,
      (sampler.sample selection sorting exp logits).1 = some (BitVec.ofNat 32 index) ∧
        Admissible exp sampler.params logits index := by
  rw [Sampler.sample, if_neg (by simpa using filled)]
  by_cases greedy : sampler.params.temperature < 1 / 10 ^ 6
  · obtain ⟨inside, best⟩ := argmax_best filled
    exact ⟨argmax logits, by rw [if_pos greedy], admissible_best inside best⟩
  · obtain ⟨some_, each⟩ := probsBuf_admissible selection sorting positive grows warm filled
    rw [if_neg greedy]
    obtain ⟨index, member, drawn⟩ := draw_mem
      (((nextU64 sampler.rngState).toNat : F) / (2 ^ 64 - 1 : Nat)) some_
    exact ⟨index, congrArg (Option.map (BitVec.ofNat 32)) drawn, each index member⟩

end Tokens

section Runs

variable {F : Type} [Field F] [LinearOrder F] (selection : PartialSelection) (sorting : StableSort) (exp : F → F)

/-- A call keeps the state or steps it once. -/
theorem sample_rngState (sampler : Sampler F) (logits : List F) :
    (sampler.sample selection sorting exp logits).2.rngState = sampler.rngState ∨
      (sampler.sample selection sorting exp logits).2.rngState = nextU64 sampler.rngState := by
  rw [Sampler.sample]
  split
  · exact .inl rfl
  · split
    · exact .inl rfl
    · exact .inr rfl

/-- A state other than zero is never lost. -/
theorem run_rngState (requests : List (SamplingParams F × List F)) (sampler : Sampler F) (live : sampler.rngState ≠ 0) :
    (sampler.run selection sorting exp requests).rngState ≠ 0 := by
  induction requests generalizing sampler with
  | nil => exact live
  | cons request requests ih =>
      refine ih _ ?_
      rcases sample_rngState selection sorting exp (sampler.setParams request.1) request.2 with kept | stepped
      · rw [kept]
        exact live
      · rw [stepped]
        exact fun zero => live (nextU64_zero zero)

variable [IsStrictOrderedRing F]

/-- After every run of requests the next token is admissible and the generator does not repeat a number,
exactly for a seed other than zero. -/
theorem sampler_sound_iff (positive : ∀ x, 0 < exp x) (grows : StrictMono exp) (initial : SamplingParams F)
    (seed : BitVec 64) : (∀ requests, let sampler := (Sampler.new initial seed).run selection sorting exp requests
      (∀ (params : SamplingParams F) (logits : List F), 0 < params.temperature → logits ≠ [] → ∃ index,
        ((sampler.setParams params).sample selection sorting exp logits).1 = some (BitVec.ofNat 32 index) ∧
          Admissible exp params logits index) ∧
        nextU64 sampler.rngState ≠ nextU64 (nextU64 sampler.rngState)) ↔ seed ≠ 0 := by
  constructor
  · rintro sound rfl
    exact (sound []).2 (by rw [show nextU64 (Sampler.run selection sorting exp (Sampler.new initial 0) []).rngState = 0
      from nextU64_linear.map_zero, nextU64_linear.map_zero])
  · intro live requests
    refine ⟨fun params logits warm filled => ?_, fun stuck => ?_⟩
    · exact sample_admissible selection sorting positive grows
        (((Sampler.new initial seed).run selection sorting exp requests).setParams params) warm filled
    · exact run_rngState selection sorting exp requests _ live (nextU64_zero (nextU64_fixed stuck.symm))

end Runs

theorem sampler_sound_iff_real :
    (∀ requests, let sampler := (Sampler.new ⟨1, 40, 1⟩ 42).run .merging .merging Real.exp requests
      (∀ (params : SamplingParams ℝ) (logits : List ℝ), 0 < params.temperature → logits ≠ [] → ∃ index,
        ((sampler.setParams params).sample .merging .merging Real.exp logits).1 = some (BitVec.ofNat 32 index) ∧
          Admissible Real.exp params logits index) ∧
        nextU64 sampler.rngState ≠ nextU64 (nextU64 sampler.rngState)) ↔ (42 : BitVec 64) ≠ 0 :=
  sampler_sound_iff .merging .merging Real.exp Real.exp_pos Real.exp_strictMono ⟨1, 40, 1⟩ 42

/-- The seed zero gives zero twice. -/
theorem sampler_stuck : nextU64 (Sampler.new (F := ℚ) ⟨1, 40, 1⟩ 0).rngState =
    nextU64 (nextU64 (Sampler.new (F := ℚ) ⟨1, 40, 1⟩ 0).rngState) := by
  decide

end Pictor.Sampling
