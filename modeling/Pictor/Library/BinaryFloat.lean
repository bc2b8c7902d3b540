import Mathlib.Tactic.Ring

namespace Pictor.BinaryFloat

/-- The magnitude of a code in units of the smallest one: an exponent above so many bits of mantissa. -/
def magnitude (manBits code : Nat) : Nat :=
  if code / 2 ^ manBits = 0 then code % 2 ^ manBits
  else (2 ^ manBits + code % 2 ^ manBits) * 2 ^ (code / 2 ^ manBits - 1)

variable {manBits exp man code : Nat}

theorem magnitude_normal (exp : Nat) (small : man < 2 ^ manBits) :
    magnitude manBits ((exp + 1) * 2 ^ manBits + man) = (2 ^ manBits + man) * 2 ^ exp := by
  have quotient : ((exp + 1) * 2 ^ manBits + man) / 2 ^ manBits = exp + 1 := by
    rw [Nat.mul_comm, Nat.mul_add_div (Nat.two_pow_pos manBits), Nat.div_eq_of_lt small, Nat.add_zero]
  have rest : ((exp + 1) * 2 ^ manBits + man) % 2 ^ manBits = man := by
    rw [Nat.mul_comm, Nat.mul_add_mod, Nat.mod_eq_of_lt small]
  rw [magnitude, quotient, rest, if_neg (Nat.succ_ne_zero exp), Nat.add_sub_cancel]

theorem magnitude_subnormal (small : code < 2 ^ manBits) : magnitude manBits code = code := by
  rw [magnitude, Nat.div_eq_of_lt small, if_pos rfl, Nat.mod_eq_of_lt small]

/-- The distance to the next code depends on the exponent. -/
theorem magnitude_succ (manBits code : Nat) :
    magnitude manBits (code + 1) = magnitude manBits code + 2 ^ (code / 2 ^ manBits - 1) := by
  have split := Nat.div_add_mod' code (2 ^ manBits)
  have small := Nat.mod_lt code (Nat.two_pow_pos manBits)
  generalize code % 2 ^ manBits = man at split small
  cases quotient : code / 2 ^ manBits with
  | zero =>
      rw [quotient, Nat.zero_mul, Nat.zero_add] at split
      subst split
      rw [magnitude_subnormal small]
      rcases Nat.lt_or_ge (man + 1) (2 ^ manBits) with inside | full
      · rw [magnitude_subnormal inside]
        rfl
      · have whole : man + 1 = 2 ^ manBits := Nat.le_antisymm small full
        have first := @magnitude_normal manBits 0 0 (Nat.two_pow_pos manBits)
        rw [Nat.zero_add, Nat.one_mul, Nat.add_zero, pow_zero, Nat.mul_one] at first
        rw [whole, first, ← whole]
        rfl
  | succ exp =>
      rw [quotient] at split
      subst split
      rw [magnitude_normal exp small, Nat.add_sub_cancel]
      rcases Nat.lt_or_ge (man + 1) (2 ^ manBits) with inside | full
      · rw [Nat.add_assoc, magnitude_normal exp inside]
        ring
      · have whole : man + 1 = 2 ^ manBits := Nat.le_antisymm small full
        have next := @magnitude_normal manBits 0 (exp + 1) (Nat.two_pow_pos manBits)
        rw [Nat.add_zero, Nat.add_zero] at next
        rw [Nat.add_assoc, whole, show (exp + 1) * 2 ^ manBits + 2 ^ manBits = (exp + 1 + 1) * 2 ^ manBits by ring, next,
          ← whole]
        ring

theorem magnitude_strictMono (manBits : Nat) : StrictMono (magnitude manBits) :=
  strictMono_nat_of_lt_succ fun code => by
    rw [magnitude_succ]
    exact Nat.lt_add_of_pos_right (Nat.two_pow_pos _)

/-- The upper one of two neighbours is taken above the middle, and at the middle if the lower one is odd. -/
def roundAt (step rest code : Nat) : Nat := if step < 2 * rest ∨ 2 * rest = step ∧ code % 2 = 1 then code + 1 else code

/-- A value lies at or behind one member of a growing sequence and before the next one. -/
structure Between (sequence : Nat → Nat) (value code step rest : Nat) : Prop where
  here : value = sequence code + rest
  next : sequence (code + 1) = sequence code + step
  small : rest < step

variable {sequence : Nat → Nat} {value value' step step' rest rest' code' : Nat}

variable (between : Between sequence value code step rest)
include between

/-- No member is nearer than the rounded one, and another member is as near only if the rounded one is even. -/
theorem Between.nearest (mono : StrictMono sequence) (other : Nat) :
    let rounded := roundAt step rest code
    ((value : Int) - sequence rounded).natAbs ≤ ((value : Int) - sequence other).natAbs ∧
      (((value : Int) - sequence rounded).natAbs = ((value : Int) - sequence other).natAbs →
        rounded = other ∨ rounded % 2 = 0) := by
  obtain ⟨here, next, small⟩ := between
  rcases Nat.lt_trichotomy other code with lower | rfl | upper
  · have := mono lower
    rw [roundAt]
    split <;> omega
  · rw [roundAt]
    split <;> omega
  · rcases Nat.eq_or_lt_of_le (show code + 1 ≤ other from upper) with rfl | beyond
    · rw [roundAt]
      split <;> omega
    · have := mono beyond
      rw [roundAt]
      split <;> omega

/-- Rounding keeps the order. -/
theorem Between.round_mono (between' : Between sequence value' code' step' rest') (mono : StrictMono sequence)
    (order : value ≤ value') : roundAt step rest code ≤ roundAt step' rest' code' := by
  obtain ⟨here, next, small⟩ := between
  obtain ⟨here', next', small'⟩ := between'
  rcases Nat.lt_trichotomy code code' with lower | rfl | upper
  · rw [roundAt, roundAt]
    split <;> split <;> omega
  · rw [roundAt, roundAt]
    split <;> split <;> omega
  · have := mono.monotone (show code' + 1 ≤ code from upper)
    omega

/-- An even code is reached up to the middle between it and the next one. -/
theorem Between.round_le_iff (mono : StrictMono sequence) {bound : Nat} (even : bound % 2 = 0) :
    roundAt step rest code ≤ bound ↔ 2 * value ≤ sequence bound + sequence (bound + 1) := by
  obtain ⟨here, next, small⟩ := between
  have grows := mono (show bound < bound + 1 from Nat.lt_succ_self bound)
  rcases Nat.lt_trichotomy code bound with lower | rfl | upper
  · have := mono.monotone (show code + 1 ≤ bound from lower)
    rw [roundAt]
    split <;> omega
  · rw [roundAt]
    split <;> omega
  · have := mono.monotone (show bound + 1 ≤ code from upper)
    rw [roundAt]
    split <;> omega

omit between

/-- The code that is nearest to a fraction of units. -/
def nearest (manBits n d : Nat) : Nat :=
  let whole := n / d
  let exp := whole.log2 - manBits
  let lower := exp * 2 ^ manBits + whole / 2 ^ exp
  roundAt (2 ^ exp * d) (n - magnitude manBits lower * d) lower

theorem magnitude_shifted {exp top : Nat} (high : top < 2 ^ (manBits + 1)) (full : exp = 0 ∨ 2 ^ manBits ≤ top) :
    magnitude manBits (exp * 2 ^ manBits + top) = top * 2 ^ exp ∧ (exp * 2 ^ manBits + top) / 2 ^ manBits - 1 = exp := by
  rw [pow_succ] at high
  rcases Nat.lt_or_ge top (2 ^ manBits) with small | large
  · obtain rfl := full.resolve_right (Nat.not_le.mpr small)
    rw [Nat.zero_mul, Nat.zero_add, magnitude_subnormal small, Nat.div_eq_of_lt small, pow_zero, Nat.mul_one]
    exact ⟨rfl, rfl⟩
  · obtain ⟨man, rfl⟩ := Nat.exists_eq_add_of_le large
    have small : man < 2 ^ manBits := by omega
    rw [show exp * 2 ^ manBits + (2 ^ manBits + man) = (exp + 1) * 2 ^ manBits + man by ring]
    refine ⟨magnitude_normal exp small, ?_⟩
    rw [Nat.mul_comm, Nat.mul_add_div (Nat.two_pow_pos manBits), Nat.div_eq_of_lt small]
    rfl

theorem nearest_between (manBits n : Nat) {d : Nat} (positive : 0 < d) : ∃ lower step rest,
    Between (fun code => magnitude manBits code * d) n lower step rest ∧ nearest manBits n d = roundAt step rest lower := by
  refine ⟨_, _, _, ?_, rfl⟩
  generalize wholeEq : n / d = whole
  generalize expEq : whole.log2 - manBits = exp
  have high : whole / 2 ^ exp < 2 ^ (manBits + 1) := by
    rw [Nat.div_lt_iff_lt_mul (Nat.two_pow_pos _), ← pow_add]
    exact Nat.lt_log2_self.trans_le (Nat.pow_le_pow_right (by decide) (by omega))
  have full : exp = 0 ∨ 2 ^ manBits ≤ whole / 2 ^ exp := by
    rcases Nat.eq_zero_or_pos exp with zero | shifted
    · exact Or.inl zero
    · rw [Nat.le_div_iff_mul_le (Nat.two_pow_pos _), ← pow_add, show manBits + exp = whole.log2 by omega]
      exact Or.inr (Nat.log2_self_le fun none => by rw [none, Nat.log2_zero] at expEq; omega)
  obtain ⟨size, place⟩ := magnitude_shifted high full
  have below := Nat.mul_le_mul_right d (Nat.div_mul_le_self whole (2 ^ exp))
  have above := Nat.mul_le_mul_right d (Nat.lt_mul_div_succ whole (Nat.two_pow_pos exp))
  have inside := Nat.div_mul_le_self n d
  have beyond := Nat.lt_mul_div_succ n positive
  rw [wholeEq] at inside beyond
  refine ⟨?_, ?_, ?_⟩
  · rw [size]
    omega
  · rw [magnitude_succ, place, Nat.add_mul]
  · have split : 2 ^ exp * (whole / 2 ^ exp + 1) * d = whole / 2 ^ exp * 2 ^ exp * d + 2 ^ exp * d := by ring
    rw [split] at above
    rw [Nat.mul_comm] at beyond
    rw [size]
    have := beyond.trans_le above
    omega

end Pictor.BinaryFloat
