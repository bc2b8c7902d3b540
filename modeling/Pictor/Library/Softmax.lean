import Mathlib.Algebra.BigOperators.Field
import Mathlib.Algebra.Order.Field.Basic
import Mathlib.Tactic.FieldSimp
import Mathlib.Tactic.Ring

namespace Pictor.Softmax
open List

/-- An exponential of an ordered field with its logarithm. -/
structure Exponential (F : Type) [Field F] [LinearOrder F] where
  exp : F → F
  ln : F → F
  exp_add : ∀ a b, exp (a + b) = exp a * exp b
  exp_pos : ∀ a, 0 < exp a
  exp_ln : ∀ a, 0 < a → exp (ln a) = a
  ln_exp : ∀ a, ln (exp a) = a

variable {F : Type} [Field F] [LinearOrder F] (e : Exponential F)

namespace Exponential

variable {e} {scores : List F} {rows : List (F × F)}

theorem exp_sub (a b : F) : e.exp (a - b) = e.exp a / e.exp b := by
  rw [eq_div_iff (ne_of_gt (e.exp_pos b)), ← e.exp_add, sub_add_cancel]

theorem ln_mul {a b : F} (positive : 0 < a) (positive' : 0 < b) : e.ln (a * b) = e.ln a + e.ln b := by
  have product : e.exp (e.ln a + e.ln b) = a * b := by
    rw [e.exp_add, e.exp_ln a positive, e.exp_ln b positive']
  rw [← product, e.ln_exp]

variable (e)

/-- The sum of the exponentials of scores. -/
def mass (scores : List F) : F := (scores.map e.exp).sum

/-- The sum of values weighted by the exponentials of their scores. -/
def weighted (rows : List (F × F)) : F := (rows.map fun row => e.exp row.1 * row.2).sum

/-- The mean of values under the softmax of their scores. -/
def mean (rows : List (F × F)) : F := e.weighted rows / e.mass (rows.map Prod.fst)

variable {e}

theorem mass_append (scores scores' : List F) : e.mass (scores ++ scores') = e.mass scores + e.mass scores' := by
  rw [mass, map_append, List.sum_append, mass, mass]

theorem weighted_append (rows rows' : List (F × F)) :
    e.weighted (rows ++ rows') = e.weighted rows + e.weighted rows' := by
  rw [weighted, map_append, List.sum_append, weighted, weighted]

/-- Scores less a constant have the mass less a factor. -/
theorem mass_shifted (scores : List F) (shift : F) :
    (scores.map fun score => e.exp (score - shift)).sum = e.mass scores / e.exp shift := by
  induction scores with
  | nil => rw [mass, map_nil, map_nil, sum_nil, zero_div]
  | cons score scores ih =>
      rw [map_cons, sum_cons, ih, exp_sub, mass, mass, map_cons, sum_cons, add_div]

theorem weighted_shifted (rows : List (F × F)) (shift : F) :
    (rows.map fun row => e.exp (row.1 - shift) * row.2).sum = e.weighted rows / e.exp shift := by
  induction rows with
  | nil => rw [weighted, map_nil, map_nil, sum_nil, zero_div]
  | cons row rows ih =>
      rw [map_cons, sum_cons, ih, exp_sub, weighted, weighted, map_cons, sum_cons, add_div,
        div_mul_eq_mul_div]

/-- The mean does not depend on the shift of the scores. -/
theorem mean_shifted (rows : List (F × F)) (shift : F) : (rows.map fun row => e.exp (row.1 - shift) * row.2).sum /
      ((rows.map Prod.fst).map fun score => e.exp (score - shift)).sum = e.mean rows := by
  rw [weighted_shifted, mass_shifted, div_div_div_cancel_right₀ (ne_of_gt (e.exp_pos shift)), mean]

/-- The mean is the sum of the values weighted by their softmax. -/
theorem mean_eq_sum (rows : List (F × F)) :
    e.mean rows = (rows.map fun row => e.exp row.1 / e.mass (rows.map Prod.fst) * row.2).sum := by
  rw [mean, weighted]
  generalize e.mass (rows.map Prod.fst) = total
  induction rows with
  | nil => rw [map_nil, map_nil, sum_nil, zero_div]
  | cons row rows ih =>
      rw [map_cons, map_cons, sum_cons, sum_cons, add_div, ih, div_mul_eq_mul_div]

theorem mass_flatten (parts : List (List F)) : e.mass parts.flatten = (parts.map e.mass).sum := by
  induction parts with
  | nil => rfl
  | cons part parts ih => rw [flatten_cons, mass_append, ih, map_cons, sum_cons]

theorem weighted_flatten (parts : List (List (F × F))) : e.weighted parts.flatten = (parts.map e.weighted).sum := by
  induction parts with
  | nil => rfl
  | cons part parts ih => rw [flatten_cons, weighted_append, ih, map_cons, sum_cons]

variable [IsStrictOrderedRing F]

theorem mass_nonneg (scores : List F) : 0 ≤ e.mass scores := by
  induction scores with
  | nil => exact le_refl _
  | cons score scores ih =>
      rw [mass, map_cons, sum_cons]
      exact add_nonneg (le_of_lt (e.exp_pos score)) ih

theorem mass_pos (some_ : scores ≠ []) : 0 < e.mass scores := by
  cases scores with
  | nil => exact absurd rfl some_
  | cons score scores =>
      rw [mass, map_cons, sum_cons]
      exact add_pos_of_pos_of_nonneg (e.exp_pos score) (mass_nonneg scores)

/-- The logarithm of the mass does not depend on the shift. -/
theorem ln_shifted (some_ : scores ≠ []) (shift : F) :
    shift + e.ln ((scores.map fun score => e.exp (score - shift)).sum) = e.ln (e.mass scores) := by
  have positive : 0 < e.mass scores / e.exp shift := div_pos (mass_pos some_) (e.exp_pos shift)
  calc shift + e.ln ((scores.map fun score => e.exp (score - shift)).sum)
      = e.ln (e.exp shift) + e.ln (e.mass scores / e.exp shift) := by rw [mass_shifted, e.ln_exp]
    _ = e.ln (e.exp shift * (e.mass scores / e.exp shift)) := (ln_mul (e.exp_pos shift) positive).symm
    _ = e.ln (e.mass scores) := by rw [mul_div_cancel₀ _ (ne_of_gt (e.exp_pos shift))]

/-- The mass of parts is the mass of the logarithms of their masses. -/
theorem mass_ln {parts : List (List F)} (filled : ∀ part ∈ parts, part ≠ []) :
    e.mass (parts.map fun part => e.ln (e.mass part)) = e.mass parts.flatten := by
  rw [mass_flatten, mass, map_map]
  exact congrArg List.sum (map_congr_left fun part member => e.exp_ln _ (mass_pos (filled part member)))

/-- The means of parts, weighted by their shares of the mass, sum to the mean of the whole. -/
theorem mean_flatten {parts : List (List (F × F))} (filled : ∀ part ∈ parts, part ≠ []) (some_ : parts ≠ []) :
    (parts.map fun part => e.exp (e.ln (e.mass (part.map Prod.fst)) - e.ln (e.mass (parts.flatten.map Prod.fst))) *
      e.mean part).sum = e.mean parts.flatten := by
  have whole : 0 < e.mass (parts.flatten.map Prod.fst) := by
    refine mass_pos fun none => some_ ?_
    cases parts with
    | nil => rfl
    | cons part parts =>
        rw [map_eq_nil_iff, flatten_cons, append_eq_nil_iff] at none
        exact absurd none.1 (filled part mem_cons_self)
  have each : ∀ part ∈ parts, e.exp (e.ln (e.mass (part.map Prod.fst)) -
      e.ln (e.mass (parts.flatten.map Prod.fst))) * e.mean part =
        e.weighted part / e.mass (parts.flatten.map Prod.fst) := by
    intro part member
    have positive : 0 < e.mass (part.map Prod.fst) :=
      mass_pos fun none => filled part member (map_eq_nil_iff.mp none)
    rw [exp_sub, e.exp_ln _ positive, e.exp_ln _ whole, mean, div_mul_div_comm,
      mul_comm (e.mass (parts.flatten.map Prod.fst)), mul_div_mul_left _ _ (ne_of_gt positive)]
  rw [map_congr_left each, mean, weighted_flatten]
  generalize e.mass (parts.flatten.map Prod.fst) = total
  clear each whole filled some_
  induction parts with
  | nil => rw [map_nil, map_nil, sum_nil, zero_div]
  | cons part parts ih => rw [map_cons, map_cons, sum_cons, sum_cons, add_div, ih]

end Exponential

end Pictor.Softmax
