import Mathlib.Data.UInt
import Pictor.Library.Tiling

namespace Pictor.MlxRng
open Tiling

/-- A key or a counter has two words. -/
abbrev Pair := UInt32 × UInt32

def rotateLeft (word : UInt32) (count : Nat) : UInt32 := ⟨word.toBitVec.rotateLeft count⟩

def rotations (i : Nat) : List Nat := if i % 2 = 0 then [13, 15, 26, 6] else [17, 29, 16, 24]

def parity : UInt32 := 0x1BD11BDA

/-- The source keeps these three words in the array `ks`. -/
def ks (key : Pair) (index : Nat) : UInt32 :=
  match index with
  | 0 => key.1
  | 1 => key.2
  | _ => key.1 ^^^ key.2 ^^^ parity

def mix (count : Pair) (r : Nat) : Pair :=
  let c0 := count.1 + count.2
  (c0, rotateLeft count.2 r ^^^ c0)

def inject (key count : Pair) (i : Nat) : Pair :=
  (count.1 + ks key ((i + 1) % 3), count.2 + ks key ((i + 2) % 3) + (UInt32.ofNat i + 1))

def threefry2x32 (key count : Pair) : Pair :=
  (List.range 5).foldl (fun count i => inject key ((rotations i).foldl mix count) i)
    (count.1 + ks key 0, count.2 + ks key 1)

/-- The loop runs out of fuel, or a word is stored outside the output. -/
inductive Stop
  | fuel
  | panic
  deriving DecidableEq

/-- The control flow of `random_bits` only hashes counters and stores words. -/
structure Machine (Out : Type) where
  hash : Pair → Out → Pair × Out
  store : Nat → UInt32 → Out → Except Stop Out

variable {Out : Type} (machine : Machine Out)

/-- The loop over both ends of the output. -/
def pairs (half : Nat) (fuel : Nat) (cFirst cSecond : UInt32) (out : Out) : Except Stop (UInt32 × UInt32 × Out) :=
  match fuel with
  | 0 => .error .fuel
  | fuel + 1 =>
      if cFirst.toNat + 1 < half then do
        let (rb, out) := machine.hash (cFirst, cSecond) out
        let out ← machine.store cFirst.toNat rb.1 out
        let out ← machine.store cSecond.toNat rb.2 out
        pairs half fuel (cFirst + 1) (cSecond + 1) out
      else
        .ok (cFirst, cSecond, out)

/-- The last pair is behind the loop. -/
def lastPair (n : Nat) (cFirst cSecond : UInt32) (out : Out) : Except Stop Out :=
  if cFirst.toNat < n / 2 then do
    let (rb, out) := machine.hash (cFirst, cSecond) out
    let out ← machine.store cFirst.toNat rb.1 out
    if cSecond.toNat < n then machine.store cSecond.toNat rb.2 out else .ok out
  else
    .ok out

/-- An odd output has a middle element. -/
def middle (n : Nat) (out : Out) : Except Stop Out :=
  if n % 2 = 0 then
    .ok out
  else
    let (rb, out) := machine.hash (UInt32.ofNat (n / 2), 0) out
    if n / 2 < n then machine.store (n / 2) rb.1 out else .ok out

def fill (n : Nat) (out : Out) : Except Stop Out := do
  let (cFirst, cSecond, out) ← pairs machine (n / 2) (n + 1) 0
    (UInt32.ofNat (n / 2) + if n % 2 = 0 then 0 else 1) out
  let out ← lastPair machine n cFirst cSecond out
  middle machine n out

def randomBits (n : Nat) (key : Pair) : Except Stop (List UInt32) :=
  let out := List.replicate n 0
  if n = 0 then .ok out
  else fill ⟨fun count out => (threefry2x32 key count, out), setAt .panic⟩ n out

/-- The counters that are hashed and the places that are stored to, in their order. -/
structure Log where
  counters : List Pair
  places : List Nat

/-- The same control flow as `randomBits`, with a log of what it does. -/
def logged (n : Nat) (key : Pair) : Except Stop Log :=
  let log : Log := ⟨[], []⟩
  if n = 0 then .ok log
  else fill ⟨fun count log => (threefry2x32 key count, { log with counters := log.counters ++ [count] }),
    fun place _ log => .ok { log with places := log.places ++ [place] }⟩ n log

end Pictor.MlxRng
