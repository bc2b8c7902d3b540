/-
Scales are exact values.
-/

import Mathlib.Algebra.Order.Field.Rat
import Mathlib.Algebra.Order.Group.Abs
import Pictor.Library.Slice

namespace Pictor.Ternary
open Slice LittleEndian

structure BlockTQ2_0_g128 where
  qs : List UInt8
  d : ℚ

inductive PackError where
  | inFeaturesNotAligned (module : String) (inFeatures : Nat)
  | bufferLengthMismatch (module which : String) (got expected : Nat)
  | codeOutOfRange (module : String) (row group value : Nat)
  | asymmetricBias (module : String) (row group : Nat) (bias scale : ℚ)

def codesPerU32 : Nat := 16

/-- The two-bit code of a word at a lane. -/
def codeAt (word lane : Nat) : Nat := word >>> (lane * 2) % 4

section Routes

-- The rounding to a half float.
variable (f16FromF32 : ℚ → ℚ)

/-- The block of a group behind both guards. -/
def packGroup (module : String) (row group : Nat) (words : List Nat) (scale bias : ℚ) :
    Except PackError BlockTQ2_0_g128 :=
  match (words.flatMap fun word => (List.range codesPerU32).map (codeAt word)).find? (2 < ·) with
  | some value => .error (.codeOutOfRange module row group value)
  | none =>
      if bias ≠ -scale then .error (.asymmetricBias module row group bias scale)
      else .ok ⟨words.flatMap (leBytes 4), f16FromF32 scale⟩

def packQuantizedModule (module : String) (weight : List Nat) (scales biases : List ℚ) (outFeatures inFeatures : Nat) :
    Except PackError (List BlockTQ2_0_g128) :=
  let weightCols := inFeatures / codesPerU32
  let groupCols := inFeatures / 128
  if inFeatures = 0 ∨ inFeatures % 128 ≠ 0 then .error (.inFeaturesNotAligned module inFeatures)
  else if weight.length ≠ outFeatures * weightCols then
    .error (.bufferLengthMismatch module "weight" weight.length (outFeatures * weightCols))
  else if scales.length ≠ outFeatures * groupCols then
    .error (.bufferLengthMismatch module "scales" scales.length (outFeatures * groupCols))
  else if biases.length ≠ outFeatures * groupCols then
    .error (.bufferLengthMismatch module "biases" biases.length (outFeatures * groupCols))
  else do
    let rows ← (List.range outFeatures).mapM fun row => (List.range groupCols).mapM fun group =>
      packGroup f16FromF32 module row group (slice weight (row * weightCols + group * 8) 8)
        (scales.getD (row * groupCols + group) 0) (biases.getD (row * groupCols + group) 0)
    return rows.flatten

def ternaryDecode (byte : UInt8) (lane : Nat) : Int :=
  match codeAt byte.toNat lane with
  | 0b00 => -1
  | 0b01 => 0
  | 0b10 => 1
  | _ => 0

/-- The weight of a block at a lane. -/
def BlockTQ2_0_g128.weight (block : BlockTQ2_0_g128) (j : Nat) : ℚ :=
  block.d * ternaryDecode (block.qs.getD (j / 4) 0) (j % 4)

/-- The output behind the weights is unchanged. An output that is too short is an error. -/
def dequant (blocks : List BlockTQ2_0_g128) (output : List ℚ) : Except (Nat × Nat) (List ℚ) :=
  let expectedLen := blocks.length * 128
  if output.length < expectedLen then .error (output.length, expectedLen)
  else .ok ((blocks.flatMap fun block => (List.range 128).map block.weight) ++ output.drop expectedLen)

def absmax (chunk : List ℚ) : ℚ := chunk.foldl (fun acc x => max acc |x|) 0

def ternaryCode (threshold x : ℚ) : UInt8 := if threshold ≤ x then 0b10 else if x ≤ -threshold then 0b00 else 0b01

/-- Each byte joins four codes. -/
def quantizeChunk (chunk : List ℚ) : BlockTQ2_0_g128 :=
  if absmax chunk = 0 then ⟨List.replicate 32 0x55, 0⟩
  else
    let threshold := 1 / 2 * absmax chunk
    ⟨(List.range 32).map fun byteIdx => (List.range 4).foldl (fun byte lane =>
      byte ||| ternaryCode threshold (chunk.getD (byteIdx * 4 + lane) 0) <<< UInt8.ofNat (lane * 2)) 0,
      f16FromF32 (absmax chunk)⟩

/-- The blocks, or the length that is no multiple of 128. -/
def quantize (input : List ℚ) : Except Nat (List BlockTQ2_0_g128) :=
  if input.length % 128 ≠ 0 then .error input.length
  else .ok ((List.range (input.length / 128)).map fun blockIdx =>
    quantizeChunk f16FromF32 (slice input (blockIdx * 128) 128))

end Routes

def moduleCode (weight : List Nat) (inFeatures row j : Nat) : Nat :=
  codeAt (weight.getD (row * (inFeatures / codesPerU32) + j / codesPerU32) 0) (j % codesPerU32)

/-- The exactly dequantised weights of a module, `code * scale + bias`, in the order of its rows. -/
def moduleWeights (weight : List Nat) (scales biases : List ℚ) (outFeatures inFeatures : Nat) : List ℚ :=
  (List.range outFeatures).flatMap fun row => (List.range inFeatures).map fun j =>
    let group := row * (inFeatures / 128) + j / 128
    moduleCode weight inFeatures row j * scales.getD group 0 + biases.getD group 0

end Pictor.Ternary
