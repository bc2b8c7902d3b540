/-
Numbers are elements of an ordered field, and no number is minus infinity.
-/

import Pictor.Library.Slice
import Pictor.Library.Softmax

namespace Pictor.FlashDecode
open Slice Softmax

variable {F : Type} [Field F] [LinearOrder F] (e : Exponential F)

structure FlashDecodeConfig (F : Type) where
  numTiles : Nat
  scale : F

inductive FlashDecodeError where
  | emptyKv
  | dimMismatch (qDim kDim : Nat)
  deriving DecidableEq

/-- The score of a key under a query. -/
def score (query key : List F) (scale : F) : F := (List.zipWith (· * ·) query key).sum * scale

/-- The largest number of a list, from minus infinity on. -/
def largest (scores : List F) : Option F := scores.foldl (fun found score => some (found.elim score (max · score))) none

/-- Rows are added to a vector, each with its weight. -/
def accumulate (start : List F) (rows : List (F × List F)) : List F :=
  rows.foldl (fun output row => List.zipWith (fun o v => o + row.1 * v) output row.2) start

/-- The partial output of a tile, its largest score, and the logarithm of its mass. -/
def flashDecodeTile (query keysTile valuesTile : List F) (tileLen headDim : Nat) (scale : F) :
    List F × Option F × Option F :=
  let scores := (List.range tileLen).map fun t => score query (slice keysTile (t * headDim) headDim) scale
  match largest scores with
  | none => (List.replicate headDim 0, none, none)
  | some maxScore =>
      let weights := scores.map fun score => e.exp (score - maxScore)
      let sum := weights.sum
      let logSumExp := maxScore + e.ln sum
      let rows := weights.zipIdx.map fun weight => (weight.1, slice valuesTile (weight.2 * headDim) headDim)
      let output := accumulate (List.replicate headDim 0) rows
      (if 0 < sum then output.map (· / sum) else output, some maxScore, some logSumExp)

/-- The tiles with a finite logarithm, by their indices. -/
def validTiles (tileLse : List (Option F)) : List (Nat × F) :=
  tileLse.zipIdx.filterMap fun tile => tile.1.map fun lse => (tile.2, lse)

def combineTileOutputs (tileOutputs : List (List F)) (tileLse : List (Option F)) (headDim : Nat) : List F :=
  match tileOutputs with
  | [] => List.replicate headDim 0
  | [output] => output
  | tileOutputs =>
      match validTiles tileLse with
      | [] => List.replicate headDim 0
      | [tile] => tileOutputs.getD tile.1 []
      | valid =>
          match largest (valid.map Prod.snd) with
          | none => List.replicate headDim 0
          | some globalLseMax =>
              let globalSum := (valid.map fun tile => e.exp (tile.2 - globalLseMax)).sum
              let globalLse := globalLseMax + e.ln globalSum
              accumulate (List.replicate headDim 0)
                (valid.map fun tile => (e.exp (tile.2 - globalLse), tileOutputs.getD tile.1 []))

/-- The tiles from an index on: the first ones take the remainder, and an empty tile ends the loop. -/
def tileLoop (tileSizeBase remainder : Nat) : List Nat → Nat → List (Nat × Nat)
  | [], _ => []
  | tileIdx :: rest, offset =>
      let tileLen := tileSizeBase + if tileIdx < remainder then 1 else 0
      if tileLen = 0 then [] else (offset, tileLen) :: tileLoop tileSizeBase remainder rest (offset + tileLen)

/-- The offsets and lengths of the tiles. -/
def tiles (seqLen numTiles : Nat) : List (Nat × Nat) :=
  let numTiles := max (min numTiles seqLen) 1
  tileLoop (seqLen / numTiles) (seqLen % numTiles) (List.range numTiles) 0

def flashDecodeSingleHead (query keys values : List F) (seqLen headDim : Nat) (config : FlashDecodeConfig F) :
    Except FlashDecodeError (List F) :=
  if seqLen = 0 then .error .emptyKv
  else if query.length ≠ headDim then .error (.dimMismatch query.length headDim)
  else if keys.length ≠ seqLen * headDim then .error (.dimMismatch query.length (keys.length / max seqLen 1))
  else if values.length ≠ seqLen * headDim then .error (.dimMismatch query.length (values.length / max seqLen 1))
  else
    let results := (tiles seqLen config.numTiles).map fun tile =>
      flashDecodeTile e query (slice keys (tile.1 * headDim) (tile.2 * headDim))
        (slice values (tile.1 * headDim) (tile.2 * headDim)) tile.2 headDim config.scale
    .ok (combineTileOutputs e (results.map fun result => result.1) (results.map fun result => result.2.2) headDim)

/-- The rows of one head, copied out of token-major rows. A row that is missing stops the program. -/
def perHead (rows : List F) (numHeads seqLen headDim head : Nat) : Option (List F) :=
  (List.range seqLen).foldlM (fun buffer t =>
    let start := t * numHeads * headDim + head * headDim
    if start + headDim ≤ rows.length then some (copyFromSlice buffer (t * headDim) (slice rows start headDim)) else none)
    (List.replicate (seqLen * headDim) 0)

/-- The heads side by side. `none` stands for a slice out of range. -/
def flashDecodeMultiHead (queries keys values : List F) (numHeads seqLen headDim : Nat) (config : FlashDecodeConfig F) :
    Option (Except FlashDecodeError (List F)) :=
  if seqLen = 0 then some (.error .emptyKv)
  else if queries.length ≠ numHeads * headDim then some (.error (.dimMismatch queries.length headDim))
  else do
    let perHeadKeys ← (List.range numHeads).mapM fun head => perHead keys numHeads seqLen headDim head
    let perHeadValues ← (List.range numHeads).mapM fun head => perHead values numHeads seqLen headDim head
    let results := (List.range numHeads).map fun head =>
      flashDecodeSingleHead e (slice queries (head * headDim) headDim) (perHeadKeys.getD head [])
        (perHeadValues.getD head []) seqLen headDim config
    return results.zipIdx.foldlM (fun output result => do
      return copyFromSlice output (result.2 * headDim) (← result.1)) (List.replicate (numHeads * headDim) 0)

end Pictor.FlashDecode
