/-
A 32-bit float is its bit pattern, and its magnitude counts units of the smallest one. Products with powers of two,
fractions and their distance to a half are exact where they decide.
-/

import Pictor.Library.BinaryFloat
import Pictor.Library.Slice

namespace Pictor.Fp8
open BinaryFloat Slice

/-- What the formats differ in. The unit is the magnitude of the code one. -/
structure Format where
  manBits : Nat
  offset : Nat
  unit : Nat
  maxExp : Nat
  nan : Nat
  top : Nat
  overflows : Nat → Bool
  special : Nat → Option Nat
  wide : 1 ≤ manBits ∧ manBits ≤ 22
  deep : unit = offset + (23 - manBits) ∧ 53 ≤ unit

variable (format : Format)

/-- The encoded magnitude of a float that is not too large. The tolerance of a tie is the float next to `1e-9`. -/
def encodeAbs (abs : Nat) : Nat :=
  let f32Exp := abs >>> 23
  let f32Man := abs % 2 ^ 23
  if format.offset + 1 ≤ f32Exp then
    let expClamped := min (f32Exp - format.offset) format.maxExp
    let man := f32Man >>> (23 - format.manBits)
    let roundBit := (f32Man >>> (22 - format.manBits)) % 2
    let stickyBits := f32Man % 2 ^ (22 - format.manBits)
    let manRounded := if roundBit = 1 ∧ (stickyBits ≠ 0 ∨ man % 2 = 1) then man + 1 else man
    if 2 ^ format.manBits - 1 < manRounded then
      if format.maxExp < expClamped + 1 then format.top else (expClamped + 1) <<< format.manBits
    else expClamped <<< format.manBits ||| manRounded
  else
    let scaled := magnitude 23 abs
    let manInt := scaled / 2 ^ format.unit
    let frac := scaled % 2 ^ format.unit
    let manRounded :=
      if 2 ^ format.unit < 2 * frac then manInt + 1
      else if ((frac : Int) - 2 ^ (format.unit - 1)).natAbs < 9007199 * 2 ^ (format.unit - 53) then
        if manInt % 2 = 1 then manInt + 1 else manInt
      else manInt
    if 2 ^ format.manBits ≤ manRounded then 2 ^ format.manBits else manRounded

/-- The code of a float. -/
def encode (bits : Nat) : Nat :=
  let signBit := if bits >>> 31 ≠ 0 then 0x80 else 0
  let abs := bits % 2 ^ 31
  if 0x7F800000 < abs then format.nan
  else if abs = 0x7F800000 then signBit ||| format.top
  else if abs = 0 then signBit
  else if format.overflows abs then signBit ||| format.top
  else signBit ||| encodeAbs format abs

/-- The bit pattern of a multiple of a power of two that a normal float holds. -/
def f32Of (multiple power : Nat) : Nat :=
  (power + multiple.log2 - 22) <<< 23 + (multiple <<< (23 - multiple.log2) - 2 ^ 23)

/-- The float of a code. -/
def decode (byte : Nat) : Nat :=
  let sign := byte / 0x80 % 2
  let exp := byte >>> format.manBits % 2 ^ (7 - format.manBits)
  let man := byte % 2 ^ format.manBits
  match format.special (byte % 0x80) with
  | some nan@0x7FC00000 => nan
  | some inf => sign <<< 31 + inf
  | none =>
      if exp = 0 then if man = 0 then sign <<< 31 else sign <<< 31 + f32Of man format.unit
      else sign <<< 31 + f32Of (2 ^ format.manBits + man) (format.unit + exp - 1)

def e4m3 : Format where
  manBits := 3
  offset := 120
  unit := 140
  maxExp := 15
  nan := 0x7F
  top := 0x7E
  overflows abs := decide (0x43E00000 ≤ abs)
  special code := if code = 0x7F then some 0x7FC00000 else none
  wide := by decide
  deep := by decide

def e5m2 : Format where
  manBits := 2
  offset := 112
  unit := 133
  maxExp := 30
  nan := 0x7E
  top := 0x7C
  overflows abs := decide (0x47600000 < abs)
  special code := if code / 4 = 31 then if code % 4 = 0 then some 0x7F800000 else some 0x7FC00000 else none
  wide := by decide
  deep := by decide

def fp8E4m3Encode (x : Nat) : Nat := encode e4m3 x
def fp8E4m3Decode (byte : Nat) : Nat := decode e4m3 byte
def fp8E5m2Encode (x : Nat) : Nat := encode e5m2 x
def fp8E5m2Decode (byte : Nat) : Nat := decode e5m2 byte

section Blocks

/-- The float nearest to a fraction of the smallest one. -/
def toF32 (n d : Nat) : Nat := min 0x7F800000 (nearest 23 n d)

/-- The half float nearest to a float. -/
def f16FromF32 (abs : Nat) : Nat := min 0x7C00 (nearest 10 (magnitude 23 abs) (2 ^ 125))

/-- The largest magnitude. A float that is no number is left out. -/
def maxAbs (row : List Nat) : Nat :=
  row.foldl (fun acc x => if 0x7F800000 < x % 2 ^ 31 then acc else max acc (x % 2 ^ 31)) 0

structure Block where
  qs : List Nat
  d : Nat

/-- A finite float over a half float that is not negative. -/
def scaledBy (d val : Nat) : Nat :=
  if d = 0 then 0
  else val / 2 ^ 31 * 2 ^ 31 + if d = 0x7C00 then 0 else toF32 (magnitude 23 (val % 2 ^ 31) * 2 ^ 24) (magnitude 10 d)

def blockScale (fp8Max maxAbs : Nat) : Nat := f16FromF32 (toF32 (magnitude 23 maxAbs) fp8Max)

def quantizeChunk (fp8Max : Nat) (chunk : List Nat) : Block :=
  if maxAbs chunk = 0 then ⟨List.replicate 32 0, 0⟩
  else
    let d := blockScale fp8Max (maxAbs chunk)
    ⟨chunk.map fun val => encode format (scaledBy d val), d⟩

/-- The blocks, or the length that is no multiple of 32. -/
def quantize (fp8Max : Nat) (values : List Nat) : Except (Nat × Nat) (List Block) :=
  if values.length % 32 ≠ 0 then .error (values.length, 32)
  else .ok ((List.range (values.length / 32)).map fun blockIdx =>
    quantizeChunk format fp8Max (slice values (blockIdx * 32) 32))

def rowScale (fp8Max maxAbs : Nat) : Nat := max (toF32 (magnitude 23 maxAbs) fp8Max) 0x34000000

/-- The codes of a row of finite floats, and the scale. -/
def quantizeRow (fp8Max : Nat) (row : List Nat) : List Nat × Nat :=
  if row = [] then ([], 0x34000000)
  else
    let scale := rowScale fp8Max (maxAbs row)
    (row.map fun x => encode format (x / 2 ^ 31 * 2 ^ 31 +
      toF32 (magnitude 23 (x % 2 ^ 31) * 2 ^ 149) (magnitude 23 scale)), scale)

def BlockFP8E4M3.quantize (values : List Nat) : Except (Nat × Nat) (List Block) := Fp8.quantize e4m3 448 values
def BlockFP8E5M2.quantize (values : List Nat) : Except (Nat × Nat) (List Block) := Fp8.quantize e5m2 57344 values

inductive Fp8KvFormat where
  | e4m3
  | e5m2

def quantizeRowFp8 (row : List Nat) : Fp8KvFormat → List Nat × Nat
  | .e4m3 => quantizeRow e4m3 448 row
  | .e5m2 => quantizeRow e5m2 57344 row

end Blocks

end Pictor.Fp8
