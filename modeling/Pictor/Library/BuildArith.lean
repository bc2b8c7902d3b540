import Mathlib

namespace Pictor.BuildArith

inductive Build where
  | debug
  | release
  deriving DecidableEq

namespace Build

variable {Error : Type}

def add (build : Build) (overflow : Error) (first second : UInt64) : Except Error UInt64 :=
  if build = .debug ∧ 2 ^ 64 ≤ first.toNat + second.toNat then .error overflow else .ok (first + second)

def sub (build : Build) (overflow : Error) (first second : UInt64) : Except Error UInt64 :=
  if build = .debug ∧ first < second then .error overflow else .ok (first - second)

def mul (build : Build) (overflow : Error) (first second : UInt64) : Except Error UInt64 :=
  if build = .debug ∧ 2 ^ 64 ≤ first.toNat * second.toNat then .error overflow else .ok (first * second)

variable {build : Build} {overflow : Error} {first second : UInt64}

/-- A sum that fits is exact in each build. -/
theorem add_fits (fits : first.toNat + second.toNat < 2 ^ 64) :
    build.add overflow first second = .ok (first + second) ∧ (first + second).toNat = first.toNat + second.toNat := by
  constructor
  · rw [add, if_neg]
    omega
  · rw [UInt64.toNat_add, Nat.mod_eq_of_lt fits]

theorem add_overflows (large : 2 ^ 64 ≤ first.toNat + second.toNat) :
    Build.debug.add overflow first second = .error overflow :=
  if_pos ⟨rfl, large⟩

theorem sub_fits (fits : second ≤ first) : build.sub overflow first second = .ok (first - second) ∧
      (first - second).toNat = first.toNat - second.toNat := by
  constructor
  · rw [sub, if_neg]
    rintro ⟨_, less⟩
    exact absurd fits (UInt64.not_le.mpr less)
  · exact UInt64.toNat_sub_of_le _ _ fits

theorem sub_overflows (less : first < second) : Build.debug.sub overflow first second = .error overflow :=
  if_pos ⟨rfl, less⟩

theorem mul_fits (fits : first.toNat * second.toNat < 2 ^ 64) :
    build.mul overflow first second = .ok (first * second) ∧ (first * second).toNat = first.toNat * second.toNat := by
  constructor
  · rw [mul, if_neg]
    omega
  · rw [UInt64.toNat_mul, Nat.mod_eq_of_lt fits]

theorem mul_overflows (large : 2 ^ 64 ≤ first.toNat * second.toNat) :
    Build.debug.mul overflow first second = .error overflow :=
  if_pos ⟨rfl, large⟩

/-- A product does not depend on the error of an overflow. -/
theorem mul_ok {Error' : Type} {product : UInt64} (done : build.mul overflow first second = .ok product)
    (overflow' : Error') : build.mul overflow' first second = .ok product := by
  rw [mul] at done ⊢
  split at done
  case isTrue => cases done
  case isFalse fits =>
    rw [if_neg fits]
    exact congrArg Except.ok (Except.ok.inj done)

end Build

/-- A mask and its complement split a number. -/
theorem toNat_mask (value mask : UInt64) : (value &&& mask).toNat + (value &&& ~~~mask).toNat = value.toNat := by
  have apart : (value.toBitVec &&& mask.toBitVec) &&& (value.toBitVec &&& ~~~mask.toBitVec) = 0#64 := by
    ext index inside
    simp only [BitVec.getElem_and, BitVec.getElem_not, BitVec.getElem_zero]
    cases value.toBitVec[index] <;> cases mask.toBitVec[index] <;> rfl
  have whole : (value.toBitVec &&& mask.toBitVec) + (value.toBitVec &&& ~~~mask.toBitVec) = value.toBitVec := by
    rw [BitVec.add_eq_or_of_and_eq_zero _ _ apart]
    ext index inside
    simp only [BitVec.getElem_and, BitVec.getElem_not, BitVec.getElem_or]
    cases value.toBitVec[index] <;> cases mask.toBitVec[index] <;> rfl
  have sum := BitVec.toNat_add_of_and_eq_zero apart
  rw [whole] at sum
  exact sum.symm

end Pictor.BuildArith
