import Mathlib.Tactic.Linarith
import Pictor.Construction.Quant.Fp8

namespace Pictor.Fp8
open BinaryFloat

/-- The rounding and the sticky bits tell on which side of the middle the dropped bits lie. -/
theorem roundBit_iff (half f : Nat) (positive : 0 < half) :
    f / half % 2 = 1 ∧ (f % half ≠ 0 ∨ f / (half * 2) % 2 = 1) ↔
      half * 2 < 2 * (f % (half * 2)) ∨ 2 * (f % (half * 2)) = half * 2 ∧ f / (half * 2) % 2 = 1 := by
  have split := @Nat.mod_mul half 2 f
  have small := Nat.mod_lt f positive
  rcases Nat.mod_two_eq_zero_or_one (f / half) with bit | bit <;> rw [bit] at split ⊢ <;> omega

theorem roundAt_mul {factor : Nat} (positive : 0 < factor) (step rest code : Nat) :
    roundAt (step * factor) (rest * factor) code = roundAt step rest code := by
  simp only [roundAt, ← Nat.mul_assoc, Nat.mul_lt_mul_right positive, Nat.mul_left_inj positive.ne']

variable {format : Format} {abs last : Nat}

/-- The magnitudes of the codes in the units of a float. -/
def Format.codes (format : Format) (code : Nat) : Nat := magnitude format.manBits code * 2 ^ format.unit

theorem Format.codes_strictMono (format : Format) : StrictMono format.codes := fun _ _ order =>
  Nat.mul_lt_mul_of_pos_right (magnitude_strictMono _ order) (Nat.two_pow_pos _)

/-- The value of a float in units of the smallest one. Infinity counts as the next power of two. -/
def value (bits : Nat) : Int := if bits / 2 ^ 31 = 1 then -magnitude 23 (bits % 2 ^ 31) else magnitude 23 (bits % 2 ^ 31)

/-- No float that is encoded lies above the last finite code, and the codes up to the top one can be decoded. -/
structure Format.Ends (format : Format) (last : Nat) : Prop where
  inside : last < (format.maxExp + 1) * 2 ^ format.manBits
  bound : ∀ abs, format.overflows abs = false → abs ≤ format.offset * 2 ^ 23 + last * 2 ^ (23 - format.manBits)
  upward : ∀ abs abs', abs ≤ abs' → format.overflows abs = true → format.overflows abs' = true
  positive : format.overflows 0 = false
  infinite : format.overflows 0x7F800000 = true
  many : 2 ^ format.manBits ≤ last
  ordered : last ≤ format.top ∧ format.top < 128
  signed : ∀ code < 256, code % 128 ≤ format.top → value (decode format code) =
    if code / 128 = 1 then -value (decode format (code % 128)) else value (decode format (code % 128))
  exact : ∀ code ≤ last, value (decode format code) = format.codes code
  grows : ∀ code < format.top, value (decode format code) ≤ value (decode format (code + 1))
  inverse : ∀ code < 256, code % 128 ≤ format.top → encode format (decode format code) = code

/-- A code that the rounded magnitude of a float gets. -/
def Rounded (format : Format) (last abs code : Nat) : Prop :=
  code ≤ last ∧ ∃ lower step rest, Between format.codes (magnitude 23 abs) lower step rest ∧ code = roundAt step rest lower

theorem roundAt_le {step rest lower : Nat} (bound : lower * step + rest ≤ last * step) (positive : 0 < step) :
    roundAt step rest lower ≤ last := by
  have order := Nat.le_of_mul_le_mul_right ((Nat.le_add_right _ rest).trans bound) positive
  rcases Nat.lt_or_eq_of_le order with before | rfl
  · rw [roundAt]
    split <;> omega
  · rw [roundAt, if_neg (by omega)]

theorem encodeAbs_normal (ends : format.Ends last) (fits : format.overflows abs = false)
    (normal : format.offset + 1 ≤ abs / 2 ^ 23) : Rounded format last abs (encodeAbs format abs) := by
  obtain ⟨low, high⟩ := format.wide
  have unit := format.deep.1
  obtain ⟨exp, expEq⟩ := Nat.exists_eq_add_of_le normal
  have halves : 2 ^ (22 - format.manBits) * 2 = 2 ^ (23 - format.manBits) := by
    rw [← pow_succ]
    congr 1
    omega
  have whole : 2 ^ 23 = 2 ^ format.manBits * 2 ^ (23 - format.manBits) := by
    rw [← pow_add]
    congr 1
    omega
  have scale : 0 < 2 ^ (23 - format.manBits) := Nat.two_pow_pos _
  have even : 2 ∣ (exp + 1) * 2 ^ format.manBits := (dvd_pow_self 2 (by omega)).mul_left _
  have manSmall := Nat.mod_lt abs (Nat.two_pow_pos 23)
  have split := Nat.div_add_mod' abs (2 ^ 23)
  have bound := ends.bound abs fits
  have manSplit := Nat.div_add_mod' (abs % 2 ^ 23) (2 ^ (23 - format.manBits))
  have restSmall := Nat.mod_lt (abs % 2 ^ 23) scale
  have bit := roundBit_iff (2 ^ (22 - format.manBits)) (abs % 2 ^ 23) (Nat.two_pow_pos _)
  rw [halves] at bit
  rw [expEq, ← manSplit] at split
  have manBound : abs % 2 ^ 23 / 2 ^ (23 - format.manBits) < 2 ^ format.manBits := by
    rw [Nat.div_lt_iff_lt_mul scale, ← whole]
    exact manSmall
  have size := @magnitude_normal 23 _ (format.offset + exp) manSmall
  rw [encodeAbs]
  simp only [Nat.shiftRight_eq_div_pow, Nat.shiftLeft_eq]
  rw [if_pos normal]
  simp only [bit, expEq]
  rw [← manSplit] at size
  generalize abs % 2 ^ 23 / 2 ^ (23 - format.manBits) = man at *
  generalize abs % 2 ^ 23 % 2 ^ (23 - format.manBits) = rest at *
  -- The float counts steps of the format behind the offset.
  have counted : ((exp + 1) * 2 ^ format.manBits + man) * 2 ^ (23 - format.manBits) + rest ≤
      last * 2 ^ (23 - format.manBits) := by
    rw [← split, whole] at bound
    linarith
  have lower : (exp + 1) * 2 ^ format.manBits + man ≤ last :=
    Nat.le_of_mul_le_mul_right ((Nat.le_add_right _ rest).trans counted) scale
  have rounded := roundAt_le counted scale
  have inside {exp' : Nat} (order : exp' * 2 ^ format.manBits ≤ last) : exp' ≤ format.maxExp :=
    Nat.lt_succ_iff.mp (Nat.lt_of_mul_lt_mul_right (order.trans_lt ends.inside))
  have joined {man' : Nat} (small : man' < 2 ^ format.manBits) :
      (exp + 1) * 2 ^ format.manBits ||| man' = (exp + 1) * 2 ^ format.manBits + man' := by
    rw [← Nat.shiftLeft_eq, Nat.shiftLeft_add_eq_or_of_lt small]
  have exponent : min (format.offset + 1 + exp - format.offset) format.maxExp = exp + 1 := by
    have := inside ((Nat.le_add_right _ man).trans lower)
    omega
  have odd : ((exp + 1) * 2 ^ format.manBits + man) % 2 = man % 2 := by omega
  rw [exponent]
  have done : Rounded format last abs
      (roundAt (2 ^ (23 - format.manBits)) rest ((exp + 1) * 2 ^ format.manBits + man)) := by
    refine ⟨rounded, _, _, _, ⟨?_, ?_, Nat.mul_lt_mul_of_pos_right restSmall (Nat.two_pow_pos (format.offset + exp))⟩,
      (roundAt_mul (Nat.two_pow_pos _) _ _ _).symm⟩
    · rw [Format.codes, magnitude_normal exp manBound, ← split, Nat.add_right_comm format.offset, size, unit, whole,
        pow_add, pow_add]
      ring
    · have quotient : ((exp + 1) * 2 ^ format.manBits + man) / 2 ^ format.manBits = exp + 1 := by
        rw [Nat.mul_comm, Nat.mul_add_div (Nat.two_pow_pos _), Nat.div_eq_of_lt manBound, Nat.add_zero]
      rw [Format.codes, Format.codes, magnitude_succ, quotient, Nat.add_sub_cancel, unit, pow_add, pow_add]
      ring
  convert done using 1
  rw [roundAt, odd] at rounded ⊢
  split at rounded
  case isTrue up =>
    rw [if_pos up, if_pos up]
    rcases Nat.lt_or_ge (man + 1) (2 ^ format.manBits) with small | full
    · rw [if_neg (by omega), joined small]
      rfl
    · have carry : (exp + 1) * 2 ^ format.manBits + man + 1 = (exp + 1 + 1) * 2 ^ format.manBits := by
        rw [Nat.add_mul (exp + 1), Nat.one_mul]
        omega
      rw [carry] at rounded ⊢
      rw [if_pos (by omega), if_neg (Nat.not_lt.mpr (inside rounded))]
  case isFalse down =>
    rw [if_neg down, if_neg down, if_neg (by omega), joined manBound]

/-- A float has too few bits for a fraction that is near to a half from below without being a half. -/
theorem tie_iff (format : Format) (abs : Nat) (low : ¬2 ^ format.unit < 2 * (magnitude 23 abs % 2 ^ format.unit)) :
    (((magnitude 23 abs % 2 ^ format.unit : Nat) : Int) - 2 ^ (format.unit - 1)).natAbs <
      9007199 * 2 ^ (format.unit - 53) ↔ 2 * (magnitude 23 abs % 2 ^ format.unit) = 2 ^ format.unit := by
  have power (k : Nat) (small : k ≤ 53) : 2 ^ (format.unit - 53 + k) = 2 ^ k * 2 ^ (format.unit - 53) := by
    rw [pow_add, Nat.mul_comm]
  have deep := format.deep.2
  have whole := power 53 (by decide)
  have half := power 52 (by decide)
  have grid := power 27 (by decide)
  rw [show format.unit - 53 + 53 = format.unit by omega] at whole
  rw [show format.unit - 53 + 52 = format.unit - 1 by omega] at half
  rw [show ((2 : Int) ^ (format.unit - 1)) = ((2 ^ (format.unit - 1) : Nat) : Int) by push_cast; rfl, half]
  have positive := Nat.two_pow_pos (format.unit - 53)
  have inside := Nat.mod_le (magnitude 23 abs) (2 ^ format.unit)
  have small : magnitude 23 abs < 2 ^ 23 ∨ ∃ e rest, magnitude 23 abs = rest * 2 ^ e ∧ rest < 2 ^ 24 := by
    rw [magnitude]
    split
    · exact Or.inl (Nat.mod_lt _ (by decide))
    · exact Or.inr ⟨_, _, rfl, by omega⟩
  constructor
  · intro near
    by_contra apart
    obtain tiny | ⟨e, rest, size, few⟩ := small
    · omega
    · have bits : 2 ^ (format.unit - 53 + 27) < 2 ^ e := by
        have := Nat.mul_lt_mul_of_pos_right few (Nat.two_pow_pos e)
        omega
      have order := (Nat.pow_lt_pow_iff_right (by decide)).mp bits
      have fine : 2 ^ (format.unit - 53 + 27) ∣ 2 ^ format.unit := Nat.pow_dvd_pow 2 (by omega)
      have multiple : 2 ^ (format.unit - 53 + 27) ∣ magnitude 23 abs % 2 ^ format.unit := by
        rw [Nat.dvd_mod_iff fine, size]
        exact (Nat.pow_dvd_pow 2 order.le).mul_left rest
      have middle : 2 ^ (format.unit - 53 + 27) ∣ 2 ^ (format.unit - 1) := Nat.pow_dvd_pow 2 (by omega)
      have none := Nat.eq_zero_of_dvd_of_lt (Nat.dvd_sub middle multiple) (by omega)
      omega
  · intro tie
    omega

theorem encodeAbs_subnormal (ends : format.Ends last) (small : ¬format.offset + 1 ≤ abs / 2 ^ 23) :
    Rounded format last abs (encodeAbs format abs) := by
  have bound : magnitude 23 abs < 2 ^ format.manBits * 2 ^ format.unit := by
    have top := @magnitude_normal 23 0 format.offset (Nat.two_pow_pos 23)
    have order := magnitude_strictMono 23 (show abs < (format.offset + 1) * 2 ^ 23 + 0 by omega)
    rw [top, Nat.add_zero] at order
    refine order.trans_eq ?_
    rw [format.deep.1, ← pow_add, ← pow_add]
    congr 1
    have := format.wide
    omega
  have tie := tie_iff format abs
  rw [encodeAbs]
  simp only [Nat.shiftRight_eq_div_pow]
  rw [if_neg small]
  have code : magnitude 23 abs / 2 ^ format.unit < 2 ^ format.manBits := by
    rwa [Nat.div_lt_iff_lt_mul (Nat.two_pow_pos _)]
  have split := Nat.div_add_mod' (magnitude 23 abs) (2 ^ format.unit)
  have rest := Nat.mod_lt (magnitude 23 abs) (Nat.two_pow_pos format.unit)
  generalize magnitude 23 abs / 2 ^ format.unit = manInt at *
  generalize magnitude 23 abs % 2 ^ format.unit = frac at *
  have between : Between format.codes (magnitude 23 abs) manInt (2 ^ format.unit) frac := by
    refine ⟨?_, ?_, rest⟩
    · rw [Format.codes, magnitude_subnormal code, split]
    · rw [Format.codes, Format.codes, magnitude_succ, Nat.div_eq_of_lt code, Nat.zero_sub, pow_zero, Nat.add_mul,
        Nat.one_mul]
  have done : Rounded format last abs (roundAt (2 ^ format.unit) frac manInt) := by
    have := ends.many
    refine ⟨?_, _, _, _, between, rfl⟩
    rw [roundAt]
    split <;> omega
  have rounded : (if 2 ^ format.unit < 2 * frac then manInt + 1
      else if ((frac : Int) - 2 ^ (format.unit - 1)).natAbs < 9007199 * 2 ^ (format.unit - 53) then
        if manInt % 2 = 1 then manInt + 1 else manInt
      else manInt) = roundAt (2 ^ format.unit) frac manInt := by
    rw [roundAt]
    by_cases above : 2 ^ format.unit < 2 * frac
    · rw [if_pos above, if_pos (Or.inl above)]
    · simp only [above, tie above, if_false, false_or, ite_and]
  rw [rounded]
  convert done using 1
  rw [roundAt]
  split <;> split <;> omega

def Finite (x : Nat) : Prop := x < 2 ^ 32 ∧ x % 2 ^ 31 < 0x7F800000

/-- The magnitude part of a code: the top one for a float that is too large, else a rounded one. -/
def Low (format : Format) (last abs low : Nat) : Prop :=
  format.overflows abs = true ∧ low = format.top ∨ format.overflows abs = false ∧ Rounded format last abs low

theorem Low.le_top (ends : format.Ends last) {low : Nat} (known : Low format last abs low) : low ≤ format.top := by
  rcases known with ⟨_, rfl⟩ | ⟨_, inside, _⟩
  · exact le_refl _
  · exact inside.trans ends.ordered.1

theorem encode_low (ends : format.Ends last) {x : Nat} (bits : x < 2 ^ 32) (number : x % 2 ^ 31 ≤ 0x7F800000) :
    ∃ low, Low format last (x % 2 ^ 31) low ∧ encode format x = x / 2 ^ 31 * 128 + low := by
  have sign : x / 2 ^ 31 < 2 := by omega
  have joined {low : Nat} (small : low < 128) :
      (if x / 2 ^ 31 ≠ 0 then 0x80 else 0) ||| low = x / 2 ^ 31 * 128 + low := by
    have bit : (if x / 2 ^ 31 ≠ 0 then 0x80 else 0) = (x / 2 ^ 31) <<< 7 := by
      rcases Nat.lt_succ_iff_lt_or_eq.mp sign with zero | one
      · rw [Nat.lt_one_iff.mp zero]
        rfl
      · rw [one]
        rfl
    rw [bit, ← Nat.shiftLeft_add_eq_or_of_lt small, Nat.shiftLeft_eq]
  have rounded (fits : format.overflows (x % 2 ^ 31) = false) :
      Rounded format last (x % 2 ^ 31) (encodeAbs format (x % 2 ^ 31)) :=
    if normal : format.offset + 1 ≤ x % 2 ^ 31 / 2 ^ 23 then encodeAbs_normal ends fits normal
    else encodeAbs_subnormal ends normal
  rw [encode, Nat.shiftRight_eq_div_pow]
  rw [if_neg (Nat.not_lt.mpr number)]
  by_cases infinite : x % 2 ^ 31 = 0x7F800000
  · rw [if_pos infinite, infinite, joined ends.ordered.2]
    exact ⟨_, Or.inl ⟨ends.infinite, rfl⟩, rfl⟩
  rw [if_neg infinite]
  cases large : format.overflows (x % 2 ^ 31) with
  | true =>
      rw [if_pos rfl, joined ends.ordered.2]
      refine ⟨_, Or.inl ⟨large, rfl⟩, ?_⟩
      split
      case isTrue zero =>
        rw [zero, ends.positive] at large
        cases large
      case isFalse => rfl
  | false =>
      have inside := (rounded large).1
      rw [if_neg Bool.false_ne_true, joined (by have := ends.ordered; omega)]
      refine ⟨_, Or.inr ⟨large, rounded large⟩, ?_⟩
      split
      case isTrue zero =>
        have none : encodeAbs format 0 = 0 := by simp [encodeAbs, magnitude]
        rw [zero, none, ← joined (by decide), Nat.or_zero]
      case isFalse => rfl

theorem Low.mono (ends : format.Ends last) {abs' low low' : Nat} (known : Low format last abs low)
    (known' : Low format last abs' low') (order : abs ≤ abs') : low ≤ low' := by
  rcases known' with ⟨_, rfl⟩ | ⟨fits', _, code', _, _, between', rfl⟩
  · exact known.le_top ends
  · rcases known with ⟨large, _⟩ | ⟨_, _, code, _, _, between, rfl⟩
    · rw [ends.upward _ _ order large] at fits'
      cases fits'
    · exact between.round_mono between' format.codes_strictMono ((magnitude_strictMono 23).monotone order)

/-- A float gets the nearest code up to a last one, with ties to an even one. -/
def RoundsTo (encode decode : Nat → Nat) (last x : Nat) : Prop :=
  encode x % 128 ≤ last ∧ ∀ other < 256, other % 128 ≤ last →
    (value x - value (decode (encode x))).natAbs ≤ (value x - value (decode other)).natAbs ∧
    ((value x - value (decode (encode x))).natAbs = (value x - value (decode other)).natAbs →
      value (decode other) = value (decode (encode x)) ∨ encode x % 2 = 0)

/-- The encoder keeps the sign and the order, and gives every decoded code back. -/
structure Ordered (encode decode : Nat → Nat) (top : Nat) : Prop where
  sign : ∀ x, Finite x → encode x / 128 = x / 2 ^ 31
  mono : ∀ x y, Finite x → Finite y → value x ≤ value y → value (decode (encode x)) ≤ value (decode (encode y))
  inverse : ∀ code < 256, code % 128 ≤ top → encode (decode code) = code

variable (ends : format.Ends last)
include ends

/-- The signs of a float and of its code are the same, and the magnitudes are rounded. -/
theorem value_encode {x : Nat} (finite : Finite x) : ∃ low, Low format last (x % 2 ^ 31) low ∧
    encode format x / 128 = x / 2 ^ 31 ∧ encode format x % 128 = low ∧ value (decode format (encode format x)) =
      if x / 2 ^ 31 = 1 then -value (decode format low) else value (decode format low) := by
  obtain ⟨low, known, code⟩ := encode_low ends finite.1 finite.2.le
  have small := (known.le_top ends).trans_lt ends.ordered.2
  have sign : x / 2 ^ 31 < 2 := by have := finite.1; omega
  have quotient : encode format x / 128 = x / 2 ^ 31 := by omega
  have rest : encode format x % 128 = low := by omega
  have signed := ends.signed (encode format x) (by omega) (rest ▸ known.le_top ends)
  rw [quotient, rest] at signed
  exact ⟨low, known, quotient, rest, signed⟩

theorem Format.Ends.mono {a b : Nat} (order : a ≤ b) (inside : b ≤ format.top) :
    value (decode format a) ≤ value (decode format b) := by
  induction b, order using Nat.le_induction with
  | base => exact le_refl _
  | succ b order ih => exact (ih (Nat.le_of_succ_le inside)).trans (ends.grows b inside)

theorem Format.Ends.nonneg {a : Nat} (inside : a ≤ format.top) : 0 ≤ value (decode format a) := by
  have start := ends.mono (Nat.zero_le a) inside
  rw [ends.exact 0 (Nat.zero_le _)] at start
  exact (Int.natCast_nonneg _).trans start

/-- Nothing is encoded as nothing. -/
theorem Low.zero {low : Nat} (known : Low format last abs low) (none : magnitude 23 abs = 0) :
    value (decode format low) = 0 := by
  obtain ⟨low', known', code⟩ := @encode_low _ _ ends 0 (by decide) (by decide)
  have zero : low' = 0 := by
    rw [Nat.zero_div, Nat.zero_mul, Nat.zero_add] at code
    exact code.symm
  have order := known.mono ends known' ((magnitude_strictMono 23).le_iff_le.mp (none.trans_le (Nat.zero_le _)))
  rw [show low = 0 by omega, ends.exact 0 (Nat.zero_le _), Format.codes, magnitude_subnormal (Nat.two_pow_pos _),
    Nat.zero_mul]
  rfl

theorem Format.Ends.encoder : Ordered (encode format) (decode format) format.top where
  sign x finite := by
    obtain ⟨_, _, sign, _⟩ := value_encode ends finite
    exact sign
  mono x y finite finite' order := by
    obtain ⟨low, known, _, _, exact_⟩ := value_encode ends finite
    obtain ⟨low', known', _, _, exact_'⟩ := value_encode ends finite'
    have nonneg := ends.nonneg (known.le_top ends)
    have nonneg' := ends.nonneg (known'.le_top ends)
    have up (abs : magnitude 23 (x % 2 ^ 31) ≤ magnitude 23 (y % 2 ^ 31)) :
        value (decode format low) ≤ value (decode format low') :=
      ends.mono (known.mono ends known' ((magnitude_strictMono 23).le_iff_le.mp abs)) (known'.le_top ends)
    have down (abs : magnitude 23 (y % 2 ^ 31) ≤ magnitude 23 (x % 2 ^ 31)) :
        value (decode format low') ≤ value (decode format low) :=
      ends.mono (known'.mono ends known ((magnitude_strictMono 23).le_iff_le.mp abs)) (known.le_top ends)
    have none := known.zero ends
    have none' := known'.zero ends
    rw [exact_, exact_']
    rw [value, value] at order
    split at order <;> split at order <;> omega
  inverse := ends.inverse

/-- A float that is encoded as it is, and one that is too large for a saturating format, gets the nearest code. -/
theorem Format.Ends.rounds {x : Nat} (finite : Finite x)
    (fits : format.overflows (x % 2 ^ 31) = true → format.top = last ∧ format.codes last ≤ magnitude 23 (x % 2 ^ 31)) :
    RoundsTo (encode format) (decode format) last x := by
  obtain ⟨low, known, sign, rest, exact_⟩ := value_encode ends finite
  have inside : low ≤ last := by
    rcases known with ⟨large, rfl⟩ | ⟨_, inside, _⟩
    · exact (fits large).1.le
    · exact inside
  have nearest (other : Nat) (small : other ≤ last) :
      ((magnitude 23 (x % 2 ^ 31) : Int) - format.codes low).natAbs ≤
        ((magnitude 23 (x % 2 ^ 31) : Int) - format.codes other).natAbs ∧
      (((magnitude 23 (x % 2 ^ 31) : Int) - format.codes low).natAbs =
        ((magnitude 23 (x % 2 ^ 31) : Int) - format.codes other).natAbs → low = other ∨ low % 2 = 0) := by
    rcases known with ⟨large, rfl⟩ | ⟨_, _, _, _, _, between, rfl⟩
    · obtain ⟨top, beyond⟩ := fits large
      rw [top]
      have order := format.codes_strictMono.monotone small
      refine ⟨by omega, fun tie => Or.inl (format.codes_strictMono.injective ?_)⟩
      omega
    · exact between.nearest format.codes_strictMono other
  refine ⟨rest ▸ inside, fun other byte small => ?_⟩
  have parity : encode format x % 2 = low % 2 := by omega
  have zero := (nearest 0 (Nat.zero_le _)).1
  obtain ⟨least, tie⟩ := nearest (other % 128) small
  rw [exact_, ends.signed other byte (small.trans ends.ordered.1), ends.exact low inside, ends.exact _ small, parity]
  have same : low = other % 128 → format.codes low = format.codes (other % 128) := congrArg format.codes
  rw [show format.codes 0 = 0 by
    rw [Format.codes, magnitude_subnormal (Nat.two_pow_pos _), Nat.zero_mul]] at zero
  rw [value]
  split <;> split <;> omega

omit ends

theorem e4m3_ends : e4m3.Ends 0x7E where
  inside := by decide
  bound abs fits := Nat.le_of_lt (Nat.not_le.mp (of_decide_eq_false fits))
  upward _ _ order large := decide_eq_true ((of_decide_eq_true large).trans order)
  positive := rfl
  infinite := rfl
  many := by decide
  ordered := by decide
  signed := by decide +kernel
  exact := by decide +kernel
  grows := by decide +kernel
  inverse := by decide +kernel

theorem e5m2_ends : e5m2.Ends 0x7B where
  inside := by decide
  bound abs fits := Nat.not_lt.mp (of_decide_eq_false fits)
  upward _ _ order large := decide_eq_true ((of_decide_eq_true large).trans_le order)
  positive := rfl
  infinite := rfl
  many := by decide
  ordered := by decide
  signed := by decide +kernel
  exact := by decide +kernel
  grows := by decide +kernel
  inverse := by decide +kernel

/-- Both formats round to the nearest code. The first one saturates at 448, the second one goes to infinity above 57344,
and both keep the sign and the order and give the decoded codes back. -/
theorem fp8_exact : (∀ x, Finite x → RoundsTo fp8E4m3Encode fp8E4m3Decode 0x7E x ∧ (448 * 2 ^ 149 ≤ (value x).natAbs →
      (value (fp8E4m3Decode (fp8E4m3Encode x))).natAbs = 448 * 2 ^ 149)) ∧
    (∀ x, Finite x → ((value x).natAbs ≤ 57344 * 2 ^ 149 → RoundsTo fp8E5m2Encode fp8E5m2Decode 0x7B x) ∧
      (57344 * 2 ^ 149 < (value x).natAbs → fp8E5m2Decode (fp8E5m2Encode x) = x / 2 ^ 31 * 2 ^ 31 + 0x7F800000)) ∧
    Ordered fp8E4m3Encode fp8E4m3Decode 0x7E ∧ Ordered fp8E5m2Encode fp8E5m2Decode 0x7C := by
  have size (x : Nat) : (value x).natAbs = magnitude 23 (x % 2 ^ 31) := by
    rw [value]
    split <;> omega
  have large (x : Nat) : 448 * 2 ^ 149 ≤ (value x).natAbs ↔ e4m3.overflows (x % 2 ^ 31) = true := by
    rw [size, show 448 * 2 ^ 149 = magnitude 23 0x43E00000 by decide +kernel, (magnitude_strictMono 23).le_iff_le]
    exact decide_eq_true_iff.symm
  have beyond (x : Nat) : 57344 * 2 ^ 149 < (value x).natAbs ↔ e5m2.overflows (x % 2 ^ 31) = true := by
    rw [size, show 57344 * 2 ^ 149 = magnitude 23 0x47600000 by decide +kernel, (magnitude_strictMono 23).lt_iff_lt]
    exact decide_eq_true_iff.symm
  refine ⟨fun x finite => ⟨e4m3_ends.rounds finite fun wide => ⟨rfl, ?_⟩, fun wide => ?_⟩,
    fun x finite => ⟨fun fits => e5m2_ends.rounds finite fun wide => absurd fits (Nat.not_le.mpr ((beyond x).mpr wide)),
      fun wide => ?_⟩, e4m3_ends.encoder, e5m2_ends.encoder⟩
  · rw [show e4m3.codes 0x7E = 448 * 2 ^ 149 by decide +kernel, ← size]
    exact (large x).mpr wide
  · obtain ⟨low, known, _, _, exact_⟩ := value_encode e4m3_ends finite
    rcases known with ⟨_, rfl⟩ | ⟨fits, _⟩
    · rw [fp8E4m3Decode, fp8E4m3Encode, exact_, show value (decode e4m3 e4m3.top) = 448 * 2 ^ 149 by decide +kernel]
      split <;> rfl
    · rw [(large x).mp wide] at fits
      cases fits
  · obtain ⟨low, known, code⟩ := encode_low e5m2_ends finite.1 finite.2.le
    rcases known with ⟨_, rfl⟩ | ⟨fits, _⟩
    · have sign : x / 2 ^ 31 < 2 := by have := finite.1; omega
      rw [fp8E5m2Decode, fp8E5m2Encode, code]
      rcases Nat.lt_succ_iff_lt_or_eq.mp sign with zero | one
      · rw [Nat.lt_one_iff.mp zero]
        decide +kernel
      · rw [one]
        decide +kernel
    · rw [(beyond x).mp wide] at fits
      cases fits

end Pictor.Fp8
