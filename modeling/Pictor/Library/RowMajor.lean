import Mathlib.Algebra.BigOperators.Fin
import Mathlib.Data.Matrix.Mul
import Pictor.Library.Tiling

namespace Pictor
open List

/-- Boundaries cut the numbers below a total into pieces, some of which can be empty. -/
structure Cut (total count : Nat) where
  boundary : Nat → Nat
  starts : boundary 0 = 0
  rises : ∀ place < count, boundary place ≤ boundary (place + 1)
  ends : boundary count = total

namespace Cut
open Slice

variable {total count : Nat} (cut : Cut total count)

def size (place : Nat) : Nat := cut.boundary (place + 1) - cut.boundary place

theorem boundary_mono {first last : Nat} (order : first ≤ last) (inside : last ≤ count) :
    cut.boundary first ≤ cut.boundary last := by
  induction last, order using Nat.le_induction with
  | base => exact Nat.le_refl _
  | succ last order ih =>
      have step := cut.rises last (by omega)
      have before := ih (by omega)
      omega

variable {place : Nat}

theorem boundary_le (inside : place ≤ count) : cut.boundary place ≤ total := by
  have order := cut.boundary_mono inside (Nat.le_refl count)
  rwa [cut.ends] at order

theorem boundary_add_size (inside : place < count) : cut.boundary place + cut.size place = cut.boundary (place + 1) :=
  Nat.add_sub_cancel' (cut.rises place inside)

theorem piece_inside (inside : place < count) : cut.boundary place + cut.size place ≤ total := by
  rw [cut.boundary_add_size inside]
  exact cut.boundary_le inside

/-- Two pieces have no number in common. -/
theorem pieces_apart {first last : Nat} (order : first < last) (inside : last < count) :
    cut.boundary first + cut.size first ≤ cut.boundary last := by
  rw [cut.boundary_add_size (by omega)]
  exact cut.boundary_mono order (Nat.le_of_lt inside)

/-- Each number below the total lies in a piece. -/
theorem exists_piece {number : Nat} (below : number < total) :
    ∃ place < count, cut.boundary place ≤ number ∧ number < cut.boundary place + cut.size place := by
  have reached : ∀ last ≤ count, number < cut.boundary last →
      ∃ place < last, cut.boundary place ≤ number ∧ number < cut.boundary (place + 1) := by
    intro last inside before
    induction last with
    | zero =>
        rw [cut.starts] at before
        omega
    | succ last ih =>
        by_cases earlier : number < cut.boundary last
        · obtain ⟨place, inner, between⟩ := ih (by omega) earlier
          exact ⟨place, by omega, between⟩
        · exact ⟨last, Nat.lt_succ_self last, Nat.le_of_not_lt earlier, before⟩
  obtain ⟨place, inside, start, stop⟩ := reached count (Nat.le_refl count) (by rwa [cut.ends])
  exact ⟨place, inside, start, by rwa [cut.boundary_add_size inside]⟩

/-- The sizes of the pieces add up to the total. -/
theorem sum_sizes : ((List.range count).map cut.size).sum = total := by
  have prefixes : ∀ last ≤ count, ((List.range last).map cut.size).sum = cut.boundary last := by
    intro last inside
    induction last with
    | zero => simp [cut.starts]
    | succ last ih =>
        rw [List.range_succ, map_append, List.sum_append, ih (by omega), map_singleton, sum_singleton,
          cut.boundary_add_size (by omega)]
  rw [prefixes count (Nat.le_refl count), cut.ends]

/-- The pieces of a list make up the list. -/
theorem flatMap_slices {Element : Type} {elements : List Element} (full : elements.length = total) :
    ((List.range count).flatMap fun place => slice elements (cut.boundary place) (cut.size place)) = elements := by
  have prefixes : ∀ last ≤ count,
      ((List.range last).flatMap fun place => slice elements (cut.boundary place) (cut.size place)) =
        elements.take (cut.boundary last) := by
    intro last inside
    induction last with
    | zero => simp [cut.starts]
    | succ last ih =>
        rw [List.range_succ, flatMap_append, ih (by omega), flatMap_singleton, slice, ← take_add,
          cut.boundary_add_size (by omega)]
  rw [prefixes count (Nat.le_refl count), cut.ends, ← full, take_length]

end Cut

end Pictor

namespace Pictor.RowMajor
open Slice Tiling List

section Places

theorem place_lt {rows width row col : Nat} (inside : row < rows) (inside' : col < width) :
    row * width + col < rows * width := by
  have room := row_le inside width
  omega

theorem place_inj {width row col row' col' : Nat} (inside : col < width) (inside' : col' < width) :
    row * width + col = row' * width + col' ↔ row = row' ∧ col = col' := by
  constructor
  · intro same
    have first := (Nat.div_mod_unique (Nat.zero_lt_of_lt inside)).mpr ⟨Nat.add_comm col (width * row), inside⟩
    have second := (Nat.div_mod_unique (Nat.zero_lt_of_lt inside)).mpr ⟨Nat.add_comm col' (width * row'), inside'⟩
    rw [Nat.mul_comm width, same] at first
    rw [Nat.mul_comm width] at second
    exact ⟨first.1.symm.trans second.1, first.2.symm.trans second.2⟩
  · rintro ⟨rfl, rfl⟩
    rfl

/-- Different cells of a width have no place in common. -/
theorem cells_apart {width first second : Nat} (different : first ≠ second) :
    first * width + width ≤ second * width ∨ second * width + width ≤ first * width := by
  rw [← Nat.succ_mul, ← Nat.succ_mul]
  rcases Nat.lt_or_gt_of_ne different with less | more
  · exact Or.inl (Nat.mul_le_mul_right width less)
  · exact Or.inr (Nat.mul_le_mul_right width more)

theorem cell_of_place {width first second place : Nat} (start : first * width ≤ second * width + place)
    (stop : second * width + place < first * width + width) (inside : place < width) : first = second := by
  by_contra different
  rcases @cells_apart width first second different with before | after
  · omega
  · omega

end Places

section Rows

variable {Element : Type} {width : Nat} {rows : List (List Element)}

theorem slice_flatten (even : ∀ row ∈ rows, row.length = width) {place : Nat} (inside : place < rows.length) :
    slice rows.flatten (place * width) width = rows[place] := by
  induction rows generalizing place with
  | nil => exact absurd inside (Nat.not_lt_zero _)
  | cons row rows ih =>
      rw [forall_mem_cons] at even
      cases place with
      | zero => rw [slice, Nat.zero_mul, drop_zero, flatten_cons, ← even.1, take_left]; rfl
      | succ place =>
          have behind := ih even.2 (Nat.lt_of_succ_lt_succ inside)
          rw [slice, Nat.succ_mul, Nat.add_comm, ← drop_drop, flatten_cons, ← even.1, drop_left, even.1]
          exact behind

theorem length_flatten (even : ∀ row ∈ rows, row.length = width) : rows.flatten.length = rows.length * width := by
  rw [List.length_flatten, map_congr_left even, map_const', sum_replicate, smul_eq_mul]

theorem getElem?_flatMap {Item : Type} {images : Item → List Element} {items : List Item} {place k : Nat}
    (even : ∀ item ∈ items, (images item).length = width) (inside : k < width) :
    (items.flatMap images)[place * width + k]? = items[place]?.bind fun item => (images item)[k]? := by
  induction items generalizing place with
  | nil => rfl
  | cons item items ih =>
      obtain ⟨here, later⟩ := forall_mem_cons.mp even
      rw [flatMap_cons]
      cases place with
      | zero =>
          rw [Nat.zero_mul, Nat.zero_add, getElem?_append_left (by omega)]
          rfl
      | succ place =>
          rw [Nat.succ_mul, getElem?_append_right (by omega), here, getElem?_cons_succ, ← ih later]
          congr 1
          omega

/-- The rows of a matrix one after another. -/
def flat {height : Nat} (matrix : Matrix (Fin height) (Fin width) Element) : List Element :=
  (List.ofFn fun row => List.ofFn (matrix row)).flatten

variable {height : Nat}

variable (matrix : Matrix (Fin height) (Fin width) Element)
include matrix

theorem even_rows : ∀ row ∈ List.ofFn fun row => List.ofFn (matrix row), row.length = width := by
  intro row member
  obtain ⟨place, rfl⟩ := mem_ofFn.mp member
  exact length_ofFn

theorem length_flat : (flat matrix).length = height * width := by
  rw [flat, length_flatten (even_rows matrix), length_ofFn]

theorem slice_flat (row : Fin height) : slice (flat matrix) (row * width) width = List.ofFn (matrix row) := by
  rw [flat, slice_flatten (even_rows matrix) (by rw [length_ofFn]; exact row.isLt), List.getElem_ofFn]

end Rows

section Products

variable {R Failure : Type} [Semiring R] {failure : Failure}

def dot (first second : List R) : R := (List.zipWith (· * ·) first second).sum

theorem dot_append {first second first' second' : List R} (same : first.length = second.length) :
    dot (first ++ first') (second ++ second') = dot first second + dot first' second' := by
  rw [dot, zipWith_append same, List.sum_append, dot, dot]

theorem dot_ofFn {width : Nat} (first second : Fin width → R) :
    dot (List.ofFn first) (List.ofFn second) = dotProduct first second := by
  have products : List.zipWith (· * ·) (List.ofFn first) (List.ofFn second) =
      List.ofFn fun place => first place * second place := by
    apply ext_getElem
    · simp
    · intro place _ _
      simp
  rw [dot, products, sum_ofFn, dotProduct]

/-- The products of the pieces add up to the product. -/
theorem sum_dot_pieces {total count : Nat} (cut : Cut total count) {first second : List R}
    (full : first.length = total) (full' : second.length = total) :
    ((List.range count).map fun place => dot (slice first (cut.boundary place) (cut.size place))
      (slice second (cut.boundary place) (cut.size place))).sum = dot first second := by
  have prefixes : ∀ last ≤ count,
      ((List.range last).map fun place => dot (slice first (cut.boundary place) (cut.size place))
        (slice second (cut.boundary place) (cut.size place))).sum =
          dot (first.take (cut.boundary last)) (second.take (cut.boundary last)) := by
    intro last inside
    induction last with
    | zero => simp [cut.starts, dot]
    | succ last ih =>
        rw [List.range_succ, map_append, List.sum_append, ih (by omega), ← cut.boundary_add_size (by omega),
          take_add, take_add, dot_append (by rw [length_take, length_take, full, full'])]
        simp [slice]
  rw [prefixes count (Nat.le_refl count), cut.ends]
  conv_lhs => rw [← full, take_length, full, ← full', take_length]

variable {Element : Type} {elements : List Element} {start : Nat} {weights : List R}

theorem getAt_inside {index : Nat} (inside : index < elements.length) :
    getAt failure index elements = .ok elements[index] := by
  rw [getAt, getElem?_eq_getElem inside]

theorem slice_cons {length : Nat} (inside : start < elements.length) :
    slice elements start (length + 1) = elements[start] :: slice elements (start + 1) length := by
  rw [slice, drop_eq_getElem_cons inside, take_succ_cons, slice]

/-- The loop over the entries of a vector computes a product with a part of a matrix. -/
theorem zipIdx_dot (input : List R) {first : Nat} {acc : R} (inside : start + first + input.length ≤ weights.length) :
    (input.zipIdx first).foldlM (fun acc (value, col) => do
      let weight ← getAt failure (start + col) weights
      return acc + weight * value) acc = .ok (acc + dot (slice weights (start + first) input.length) input) := by
  induction input generalizing first acc with
  | nil =>
      rw [length_nil, slice, take_zero, dot, zipWith_nil_left, sum_nil, add_zero]
      rfl
  | cons value input ih =>
      rw [length_cons] at inside
      rw [zipIdx_cons, foldlM_cons]
      change ((getAt failure (start + first) weights >>= fun weight => Except.ok (acc + weight * value)) >>= _) = _
      rw [getAt_inside (by omega)]
      change List.foldlM _ (acc + weights[start + first] * value) _ = _
      rw [ih (by omega), length_cons, slice_cons (by omega), dot, dot, zipWith_cons_cons, sum_cons,
        add_assoc, Nat.add_assoc]

/-- The loop over a range of numbers computes the product of two parts. -/
theorem range_dot {input : List R} {start' count : Nat} (inside : start + count ≤ weights.length)
    (inside' : start' + count ≤ input.length) : (List.range count).foldlM (fun acc col => do
      let weight ← getAt failure (start + col) weights
      let value ← getAt failure (start' + col) input
      return acc + weight * value) 0 = .ok (dot (slice weights start count) (slice input start' count)) := by
  induction count with
  | zero => simp [slice, dot]; rfl
  | succ count ih =>
      rw [List.range_succ, foldlM_append, ih (by omega) (by omega)]
      simp only [foldlM_cons, foldlM_nil, bind_pure]
      change (getAt failure (start + count) weights >>= fun weight => getAt failure (start' + count) input >>=
        fun value => Except.ok (dot (slice weights start count) (slice input start' count) + weight * value)) = _
      have single {elements : List R} {place : Nat} (below : place < elements.length) :
          slice elements place 1 = [elements[place]] := by
        rw [slice_cons below]
        rfl
      rw [getAt_inside (by omega), getAt_inside (by omega), slice_add, slice_add, single (by omega), single (by omega),
        dot_append]
      · simp [dot]
        rfl
      · simp only [slice, length_take, length_drop]
        omega

end Products

end Pictor.RowMajor
