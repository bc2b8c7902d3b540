import Mathlib.Data.BitVec

namespace Pictor.BitLinear

variable {w : Nat}

/-- A map respects the exclusive or. -/
def Linear (f : BitVec w → BitVec w) : Prop := ∀ x y, f (x ^^^ y) = f x ^^^ f y

/-- The sum of the powers of a map that a list of coefficients selects. -/
def polynomial (f : BitVec w → BitVec w) : List Bool → BitVec w → BitVec w
  | [], _ => 0
  | coefficient :: rest, x => (if coefficient then x else 0) ^^^ polynomial f rest (f x)

theorem xor_interchange (a b c d : BitVec w) : (a ^^^ b) ^^^ (c ^^^ d) = (a ^^^ c) ^^^ (b ^^^ d) := by
  rw [BitVec.xor_assoc, ← BitVec.xor_assoc b, BitVec.xor_comm b c, BitVec.xor_assoc c, ← BitVec.xor_assoc]

theorem linear_id : Linear (id : BitVec w → BitVec w) := fun _ _ => rfl

theorem linear_shiftLeft (n : Nat) : Linear fun x : BitVec w => x <<< n := fun x y =>
  BitVec.shiftLeft_xor_distrib x y n

theorem linear_ushiftRight (n : Nat) : Linear fun x : BitVec w => x >>> n := fun x y =>
  BitVec.ushiftRight_xor_distrib x y n

namespace Linear

variable {f g : BitVec w → BitVec w}

theorem comp (linear : Linear f) (linear' : Linear g) : Linear (f ∘ g) := by
  intro x y
  rw [Function.comp, linear', linear, Function.comp, Function.comp]

theorem xor (linear : Linear f) (linear' : Linear g) : Linear fun x => f x ^^^ g x := by
  intro x y
  change f (x ^^^ y) ^^^ g (x ^^^ y) = (f x ^^^ g x) ^^^ (f y ^^^ g y)
  rw [linear, linear', xor_interchange]

theorem map_zero (linear : Linear f) : f 0 = 0 := by
  have twice := linear 0 0
  rw [BitVec.xor_self] at twice
  exact twice.trans BitVec.xor_self

theorem polynomial (linear : Linear f) (coefficients : List Bool) : Linear (polynomial f coefficients) := by
  induction coefficients with
  | nil =>
      intro x y
      exact BitVec.xor_self.symm
  | cons coefficient rest ih =>
      intro x y
      rw [BitLinear.polynomial, BitLinear.polynomial, BitLinear.polynomial, linear, ih]
      cases coefficient with
      | false => exact congrArg (· ^^^ _) BitVec.xor_self.symm |>.trans (xor_interchange 0 0 _ _)
      | true => exact (xor_interchange x _ y _).symm

/-- Maps that agree on the single bits agree on the words with no bit from a place on. -/
theorem eq_below (linear : Linear f) (linear' : Linear g)
    (single : ∀ i < w, f (BitVec.twoPow w i) = g (BitVec.twoPow w i)) :
    ∀ n ≤ w, ∀ x : BitVec w, (∀ i, n ≤ i → x.getLsbD i = false) → f x = g x
  | 0, _, x, clear => by
      have empty : x = 0 := BitVec.eq_of_getLsbD_eq fun i _ => by
        rw [clear i (Nat.zero_le i)]
        exact BitVec.getLsbD_zero.symm
      rw [empty, linear.map_zero, linear'.map_zero]
  | n + 1, inside, x, clear => by
      cases bit : x.getLsbD n with
      | false =>
          refine eq_below linear linear' single n (Nat.le_of_succ_le inside) x fun i from_ => ?_
          rcases Nat.eq_or_lt_of_le from_ with rfl | above
          · exact bit
          · exact clear i above
      | true =>
          have rest := eq_below linear linear' single n (Nat.le_of_succ_le inside) (x ^^^ BitVec.twoPow w n) (by
            intro i from_
            rw [BitVec.getLsbD_xor, BitVec.getLsbD_twoPow]
            rcases Nat.eq_or_lt_of_le from_ with rfl | above
            · simp [bit, Nat.lt_of_succ_le inside]
            · simp [clear i above, Nat.ne_of_lt above])
          rw [linear, linear', single n inside] at rest
          exact (BitVec.xor_left_inj _).mp rest

/-- Two maps are equal that agree on the single bits. -/
theorem eq_of_single (linear : Linear f) (linear' : Linear g)
    (single : ∀ i < w, f (BitVec.twoPow w i) = g (BitVec.twoPow w i)) (x : BitVec w) : f x = g x :=
  linear.eq_below linear' single w (Nat.le_refl w) x fun i from_ => BitVec.getLsbD_of_ge x i from_

end Linear

end Pictor.BitLinear
