import Mathlib.Data.List.Induction
import Pictor.Proof.Quant.Fp8Exact

namespace Pictor.Fp8
open BinaryFloat Slice List

/-- A code that is decoded to a finite float. -/
def Numeric (format : Format) (code : Nat) : Prop := decode format code % 2 ^ 31 < 0x7F800000

instance (format : Format) (code : Nat) : Decidable (Numeric format code) := inferInstanceAs (Decidable (_ < _))

instance (x : Nat) : Decidable (Finite x) := inferInstanceAs (Decidable (_ ∧ _))

/-- The middle between 57344 and the next float. -/
def limit : Nat := (57344 * 2 ^ 9 + 1) * 2 ^ 140

variable {x : Nat} {row : List Nat}

theorem e4m3_numeric (bits : x < 2 ^ 32) (number : x % 2 ^ 31 ≤ 0x7F800000) : Numeric e4m3 (encode e4m3 x) := by
  obtain ⟨low, known, code⟩ := encode_low e4m3_ends bits number
  have small : low ≤ 0x7E := known.le_top e4m3_ends
  have all : ∀ code < 256, code % 128 ≤ 0x7E → Numeric e4m3 code := by decide +kernel
  exact all _ (by omega) (by omega)

theorem e5m2_numeric_iff (bits : x < 2 ^ 32) (number : x % 2 ^ 31 ≤ 0x7F800000) :
    Numeric e5m2 (encode e5m2 x) ↔ x % 2 ^ 31 ≤ 0x47600000 := by
  obtain ⟨low, known, code⟩ := encode_low e5m2_ends bits number
  have all : ∀ code < 256, Numeric e5m2 code ↔ code % 128 ≤ 0x7B := by decide +kernel
  have small : low ≤ 0x7C := known.le_top e5m2_ends
  rw [all _ (by omega)]
  rcases known with ⟨large, rfl⟩ | ⟨fits, inside, _⟩
  · have beyond : 0x47600000 < x % 2 ^ 31 := of_decide_eq_true large
    have top : e5m2.top = 0x7C := rfl
    omega
  · have within := Nat.not_lt.mp (of_decide_eq_false fits)
    omega

/-- A float with the sign of another one and its own magnitude. -/
theorem signed_bits {abs : Nat} (bits : x < 2 ^ 32) (number : abs ≤ 0x7F800000) :
    x / 2 ^ 31 * 2 ^ 31 + abs < 2 ^ 32 ∧ (x / 2 ^ 31 * 2 ^ 31 + abs) % 2 ^ 31 = abs := by omega

theorem toF32_le (n d : Nat) : toF32 n d ≤ 0x7F800000 := Nat.min_le_left _ _

theorem toF32_le_iff (n : Nat) {d : Nat} (positive : 0 < d) : toF32 n d ≤ 0x47600000 ↔ n ≤ limit * d := by
  obtain ⟨lower, step, rest, between, same⟩ := nearest_between 23 n positive
  have middle := between.round_le_iff (fun _ _ order => Nat.mul_lt_mul_of_pos_right (magnitude_strictMono 23 order) positive)
    (show 0x47600000 % 2 = 0 by decide)
  rw [← Nat.add_mul, show magnitude 23 0x47600000 + magnitude 23 (0x47600000 + 1) = 2 * limit by decide +kernel,
    ← same] at middle
  rw [toF32, min_le_iff, or_iff_right (by decide), middle, Nat.mul_assoc]
  omega

theorem maxAbs_spec (finite : ∀ x ∈ row, Finite x) : (∀ x ∈ row, x % 2 ^ 31 ≤ maxAbs row) ∧
    (maxAbs row = 0 ∨ ∃ x ∈ row, x % 2 ^ 31 = maxAbs row) := by
  induction row using List.reverseRecOn with
  | nil => exact ⟨forall_mem_nil _, Or.inl rfl⟩
  | append_singleton row x ih =>
      obtain ⟨before, here⟩ := forall_mem_append.mp finite
      obtain ⟨least, reached⟩ := ih before
      have next : maxAbs (row ++ [x]) = max (maxAbs row) (x % 2 ^ 31) := by
        rw [maxAbs, foldl_append, foldl_cons, foldl_nil,
          if_neg (Nat.not_lt.mpr (here x (mem_singleton_self x)).2.le)]
        rfl
      rw [next]
      refine ⟨forall_mem_append.mpr ⟨fun y member => (least y member).trans (Nat.le_max_left _ _),
        forall_mem_singleton.mpr (Nat.le_max_right _ _)⟩, ?_⟩
      rcases Nat.le_total (maxAbs row) (x % 2 ^ 31) with upper | lower
      · rw [Nat.max_eq_right upper]
        exact Or.inr ⟨x, by simp, rfl⟩
      · rw [Nat.max_eq_left lower]
        exact reached.imp_right fun ⟨y, member, same⟩ => ⟨y, mem_append_left _ member, same⟩

/-- All quotients of a row stay finite if and only if the largest one does. -/
theorem row_numeric_iff (finite : ∀ x ∈ row, Finite x) (factor : Nat) {d : Nat} (positive : 0 < d) :
    (∀ x ∈ row, Numeric e5m2 (encode e5m2 (x / 2 ^ 31 * 2 ^ 31 + toF32 (magnitude 23 (x % 2 ^ 31) * factor) d))) ↔
      magnitude 23 (maxAbs row) * factor ≤ limit * d := by
  have each (x : Nat) (member : x ∈ row) :
      Numeric e5m2 (encode e5m2 (x / 2 ^ 31 * 2 ^ 31 + toF32 (magnitude 23 (x % 2 ^ 31) * factor) d)) ↔
        magnitude 23 (x % 2 ^ 31) * factor ≤ limit * d := by
    obtain ⟨bits, rest⟩ := signed_bits (finite x member).1 (toF32_le (magnitude 23 (x % 2 ^ 31) * factor) d)
    rw [e5m2_numeric_iff bits (rest.trans_le (toF32_le _ _)), rest, toF32_le_iff _ positive]
  obtain ⟨least, reached⟩ := maxAbs_spec finite
  constructor
  · intro all
    rcases reached with none | ⟨x, member, same⟩
    · rw [none, magnitude_subnormal (by decide), Nat.zero_mul]
      exact Nat.zero_le _
    · exact same ▸ (each x member).mp (all x member)
  · exact fun bound x member => (each x member).mpr ((Nat.mul_le_mul_right factor
      ((magnitude_strictMono 23).monotone (least x member))).trans bound)

theorem scaledBy_bits (bits : x < 2 ^ 32) (d : Nat) : scaledBy d x < 2 ^ 32 ∧ scaledBy d x % 2 ^ 31 ≤ 0x7F800000 := by
  have small : (if d = 0x7C00 then 0 else toF32 (magnitude 23 (x % 2 ^ 31) * 2 ^ 24) (magnitude 10 d)) ≤ 0x7F800000 := by
    split
    · exact Nat.zero_le _
    · exact toF32_le _ _
  rw [scaledBy]
  split
  · decide
  · obtain ⟨bits', rest⟩ := signed_bits bits small
    exact ⟨bits', rest.trans_le small⟩

/-- The largest magnitude of a block, over the scale, is not above the middle behind the last finite code. -/
def BlockFits (largest : Nat) : Prop :=
  let d := blockScale 57344 largest
  d = 0 ∨ d = 0x7C00 ∨ magnitude 23 largest * 2 ^ 24 ≤ limit * magnitude 10 d

def RowFits (largest : Nat) : Prop := magnitude 23 largest * 2 ^ 149 ≤ limit * magnitude 23 (rowScale 57344 largest)

theorem chunk_e4m3 (finite : ∀ x ∈ row, Finite x) : ∀ code ∈ (quantizeChunk e4m3 448 row).qs, Numeric e4m3 code := by
  rw [quantizeChunk]
  split
  · intro code member
    rw [eq_of_mem_replicate member]
    decide +kernel
  · refine forall_mem_map.mpr fun x member => ?_
    obtain ⟨bits, number⟩ := scaledBy_bits (finite x member).1 (blockScale 448 (maxAbs row))
    exact e4m3_numeric bits number

theorem chunk_e5m2_iff (finite : ∀ x ∈ row, Finite x) :
    (∀ code ∈ (quantizeChunk e5m2 57344 row).qs, Numeric e5m2 code) ↔ BlockFits (maxAbs row) := by
  rw [quantizeChunk, BlockFits]
  split
  case isTrue none =>
    refine iff_of_true (fun code member => ?_) ?_
    · rw [eq_of_mem_replicate member]
      decide +kernel
    · rw [none]
      exact Or.inl (by decide +kernel)
  case isFalse =>
    rw [forall_mem_map]
    generalize blockScale 57344 (maxAbs row) = d
    rcases Nat.eq_zero_or_pos d with rfl | positive
    · exact iff_of_true (fun x _ => by rw [scaledBy, if_pos rfl]; decide +kernel) (Or.inl rfl)
    · simp only [scaledBy, if_neg positive.ne', or_iff_right positive.ne']
      by_cases infinite : d = 0x7C00
      · refine iff_of_true (fun x member => ?_) (Or.inl infinite)
        obtain ⟨bits, rest⟩ := signed_bits (finite x member).1 (Nat.zero_le 0x7F800000)
        rw [if_pos infinite]
        exact (e5m2_numeric_iff bits (rest.trans_le (Nat.zero_le _))).mpr (rest.trans_le (Nat.zero_le _))
      · simp only [if_neg infinite, or_iff_right infinite]
        exact row_numeric_iff finite _ (Nat.zero_lt_of_lt (magnitude_strictMono 10 positive))

/-- The saturating format gives finite codes only. The other one does if and only if the largest magnitude of every
block, and of the row, is not divided to more than the middle behind its last finite code. -/
theorem quantize_finite {values blocks blocks'} (finite : ∀ x ∈ values, Finite x) (inRow : ∀ x ∈ row, Finite x)
    (ok : BlockFP8E4M3.quantize values = .ok blocks) (ok' : BlockFP8E5M2.quantize values = .ok blocks') :
    (∀ block ∈ blocks, ∀ code ∈ block.qs, Numeric e4m3 code) ∧
    ((∀ block ∈ blocks', ∀ code ∈ block.qs, Numeric e5m2 code) ↔
      ∀ blockIdx < values.length / 32, BlockFits (maxAbs (slice values (blockIdx * 32) 32))) ∧
    (∀ code ∈ (quantizeRowFp8 row .e4m3).1, Numeric e4m3 code) ∧
    ((∀ code ∈ (quantizeRowFp8 row .e5m2).1, Numeric e5m2 code) ↔ RowFits (maxAbs row)) := by
  have inside (blockIdx : Nat) : ∀ x ∈ slice values (blockIdx * 32) 32, Finite x := fun x member =>
    finite x (mem_of_mem_drop (mem_of_mem_take member))
  rw [BlockFP8E4M3.quantize, quantize] at ok
  rw [BlockFP8E5M2.quantize, quantize] at ok'
  split at ok
  · cases ok
  · rw [if_neg ‹_›] at ok'
    cases ok
    cases ok'
    refine ⟨forall_mem_map.mpr fun blockIdx _ => chunk_e4m3 (inside blockIdx), ?_, ?_, ?_⟩
    · rw [forall_mem_map]
      exact forall_congr' fun blockIdx => imp_congr mem_range (chunk_e5m2_iff (inside blockIdx))
    · rw [quantizeRowFp8, quantizeRow]
      split
      · exact forall_mem_nil _
      · refine forall_mem_map.mpr fun x member => ?_
        obtain ⟨bits, rest⟩ := signed_bits (inRow x member).1 (toF32_le _ _)
        exact e4m3_numeric bits (rest.trans_le (toF32_le _ _))
    · rw [quantizeRowFp8, quantizeRow, RowFits]
      split
      case isTrue empty =>
        subst empty
        exact iff_of_true (forall_mem_nil _) (by decide +kernel)
      case isFalse =>
        rw [forall_mem_map]
        refine row_numeric_iff inRow _ ?_
        exact Nat.zero_lt_of_lt (magnitude_strictMono 23 (show 0 < rowScale 57344 (maxAbs row) from
          Nat.lt_of_lt_of_le (by decide) (Nat.le_max_right _ _)))

theorem quantize_finite_two :
    (∀ code ∈ (quantizeChunk e4m3 448 (0x40000000 :: List.replicate 31 0)).qs, Numeric e4m3 code) ∧
    (∀ code ∈ (quantizeRowFp8 [0x40000000] .e4m3).1, Numeric e4m3 code) ∧
    ((∀ code ∈ (quantizeRowFp8 [0x40000000] .e5m2).1, Numeric e5m2 code) ↔ RowFits 0x40000000) := by
  have finite : ∀ x ∈ 0x40000000 :: List.replicate 31 0, Finite x := by
    refine forall_mem_cons.mpr ⟨by decide, fun x member => ?_⟩
    rw [eq_of_mem_replicate member]
    decide
  obtain ⟨blocks, -, row, row'⟩ :=
    quantize_finite finite (forall_mem_singleton.mpr (finite _ mem_cons_self)) rfl rfl
  exact ⟨blocks _ mem_cons_self, row, row'⟩

/-- A block of the two and zeros and a row of one number both hold an infinite code. -/
theorem quantize_infinite :
    ¬(∀ values blocks, (∀ x ∈ values, Finite x ∧ x % 2 ^ 31 < 0x47800000) → BlockFP8E5M2.quantize values = .ok blocks →
      ∀ block ∈ blocks, ∀ code ∈ block.qs, Numeric e5m2 code) ∧
    ¬(∀ row, (∀ x ∈ row, Finite x) → ∀ code ∈ (quantizeRowFp8 row .e5m2).1, Numeric e5m2 code) := by
  refine ⟨fun all => ?_, fun all => ?_⟩
  · have finite : ∀ x ∈ 0x40000000 :: List.replicate 31 0, Finite x ∧ x % 2 ^ 31 < 0x47800000 := by
      refine forall_mem_cons.mpr ⟨by decide, fun x member => ?_⟩
      rw [eq_of_mem_replicate member]
      decide
    have code := all _ _ finite rfl _ mem_cons_self
      (encode e5m2 (scaledBy (blockScale 57344 0x40000000) 0x40000000)) mem_cons_self
    exact absurd code (by decide +kernel)
  · have code := all [0x3FE00006] (forall_mem_singleton.mpr (by decide))
      (encode e5m2 (toF32 (magnitude 23 0x3FE00006 * 2 ^ 149) (magnitude 23 (rowScale 57344 0x3FE00006)))) mem_cons_self
    exact absurd code (by decide +kernel)

end Pictor.Fp8
