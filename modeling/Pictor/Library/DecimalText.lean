import Mathlib.Data.Rat.Floor

namespace Pictor
open List

/-- A decimal fraction in lowest terms of ten. -/
structure Decimal where
  mantissa : Int
  scale : Nat
  reduced : scale = 0 ∨ mantissa % 10 ≠ 0
  deriving DecidableEq, Repr

namespace Decimal

def toRat (value : Decimal) : ℚ := value.mantissa / 10 ^ value.scale

def ofInt (n : Int) : Decimal := ⟨n, 0, Or.inl rfl⟩

/-- The digits with at least one place in front of the point. -/
def digits (value : Decimal) : List Char := (Nat.toDigits 10 value.mantissa.natAbs).leftpad (value.scale + 1) '0'

def integerPart (value : Decimal) : List Char := value.digits.take (value.digits.length - value.scale)

def fractionPart (value : Decimal) : List Char := value.digits.drop (value.digits.length - value.scale)

def sign (value : Decimal) : List Char := if value.mantissa < 0 then ['-'] else []

/-- The shortest text of the number. -/
def display (value : Decimal) : List Char :=
  value.sign ++ value.integerPart ++ if value.scale = 0 then [] else '.' :: value.fractionPart

variable {value : Decimal}

/-- A reduced fraction is whole when it has no place behind the point. -/
theorem whole_iff : value.toRat = ⌊value.toRat⌋ ↔ value.scale = 0 := by
  constructor
  · intro whole
    by_contra some
    obtain ⟨scale, same⟩ := Nat.exists_eq_succ_of_ne_zero some
    have apart := value.reduced.resolve_left some
    have power : (10 : ℚ) ^ value.scale ≠ 0 := pow_ne_zero _ (by norm_num)
    have product : (value.mantissa : ℚ) = ⌊value.toRat⌋ * 10 ^ value.scale := by
      rw [← whole, toRat, div_mul_cancel₀ _ power]
    have integers : value.mantissa = ⌊value.toRat⌋ * 10 ^ value.scale := by
      exact_mod_cast product
    rw [integers, same, pow_succ, ← mul_assoc, Int.mul_emod_left] at apart
    exact apart rfl
  · intro none
    rw [toRat, none, pow_zero, div_one, Int.floor_intCast]

theorem length_digits : value.scale < value.digits.length := by
  rw [digits, List.leftpad, length_append, length_replicate]
  omega

theorem digits_split : value.integerPart ++ value.fractionPart = value.digits := take_append_drop ..

theorem length_fractionPart : value.fractionPart.length = value.scale := by
  have length := @length_digits value
  rw [fractionPart, length_drop]
  omega

theorem integerPart_ne_nil : value.integerPart ≠ [] := by
  have length := @length_digits value
  intro none
  have zero := congrArg List.length none
  rw [integerPart, length_take, length_nil] at zero
  omega

theorem isDigit_of_mem_digits {c : Char} (member : c ∈ value.digits) : c.isDigit = true := by
  rw [digits, List.leftpad, mem_append, mem_replicate] at member
  rcases member with ⟨_, rfl⟩ | member
  · rfl
  · exact Nat.isDigit_of_mem_toDigits (by decide) (by decide) member

theorem isDigit_integerPart {c : Char} (member : c ∈ value.integerPart) : c.isDigit = true :=
  isDigit_of_mem_digits (mem_of_mem_take member)

theorem isDigit_fractionPart {c : Char} (member : c ∈ value.fractionPart) : c.isDigit = true :=
  isDigit_of_mem_digits (mem_of_mem_drop member)

/-- The digits spell the absolute value of the mantissa. -/
theorem ofDigits_digits : Nat.ofDigitChars 10 value.digits 0 = value.mantissa.natAbs := by
  rw [digits, List.leftpad, Nat.ofDigitChars_append, Nat.ofDigitChars_replicate_zero, Nat.mul_zero,
    Nat.ofDigitChars_ten_toDigits]

end Decimal

end Pictor
