import Pictor.Library.Tiling

namespace Pictor.Sharding
open Tiling

inductive Panic where
  | noShards
  | outOfRange
  | lengthMismatch
  deriving DecidableEq

inductive ShardDim where
  | output
  | input
  deriving DecidableEq

structure ShardInfo where
  shardId : Nat
  numShards : Nat
  dim : ShardDim
  offset : Nat
  size : Nat

namespace ShardInfo

/-- The last shard takes the remainder. -/
def new (shardId numShards totalSize : Nat) (dim : ShardDim) : Except Panic ShardInfo :=
  if numShards = 0 then .error .noShards
  else
    let base := totalSize / numShards
    let remainder := totalSize % numShards
    .ok ⟨shardId, numShards, dim, shardId * base, if shardId + 1 = numShards then base + remainder else base⟩

def isLastShard (shard : ShardInfo) : Prop := shard.shardId + 1 = shard.numShards

instance (shard : ShardInfo) : Decidable shard.isLastShard :=
  inferInstanceAs (Decidable (shard.shardId + 1 = shard.numShards))

def coversIndex (shard : ShardInfo) (idx : Nat) : Prop := shard.offset ≤ idx ∧ idx < shard.offset + shard.size

end ShardInfo

inductive TensorParallelMode where
  | columnParallel
  | rowParallel

variable {R : Type} [Semiring R]

structure ShardedLinear (R : Type) where
  weights : List R
  bias : Option (List R)
  shard : ShardInfo
  inFeatures : Nat
  outFeatures : Nat

def addBias (bias : Option (List R)) (row : Nat) (acc : R) : Except Panic R :=
  match bias with
  | none => .ok acc
  | some bias => do
      let value ← getAt .outOfRange row bias
      return acc + value

namespace ShardedLinear

/-- A column-parallel shard computes its rows. A row-parallel shard computes its part of each row, and the last
one adds the bias. -/
def forward (linear : ShardedLinear R) (input : List R) : Except Panic (List R) :=
  match linear.shard.dim with
  | .output =>
      (List.range linear.shard.size).mapM fun row => do
        let acc ← (input.take linear.inFeatures).zipIdx.foldlM (fun acc (value, col) => do
          let weight ← getAt .outOfRange (row * linear.inFeatures + col) linear.weights
          return acc + weight * value) 0
        addBias linear.bias row acc
  | .input =>
      (List.range linear.outFeatures).mapM fun row => do
        let acc ← (List.range linear.shard.size).foldlM (fun acc col => do
          let weight ← getAt .outOfRange (row * linear.shard.size + col) linear.weights
          let value ← getAt .outOfRange (linear.shard.offset + col) input
          return acc + weight * value) 0
        if linear.shard.isLastShard then addBias linear.bias row acc else .ok acc

end ShardedLinear

def partitionColumnParallel (weights : List R) (bias : Option (List R)) (inFeatures outFeatures numShards : Nat) :
    Except Panic (List (ShardedLinear R)) :=
  (List.range numShards).mapM fun shardId => do
    let info ← ShardInfo.new shardId numShards outFeatures .output
    let shardWeights ← part .outOfRange weights (info.offset * inFeatures) ((info.offset + info.size) * inFeatures)
    match bias with
    | none => return ⟨shardWeights, none, info, inFeatures, outFeatures⟩
    | some bias =>
        let shardBias ← part .outOfRange bias info.offset (info.offset + info.size)
        return ⟨shardWeights, some shardBias, info, inFeatures, outFeatures⟩

/-- The columns from an offset on, row by row. -/
def copyColumns (weights : List R) (rows cols offset size : Nat) : Except Panic (List R) := do
  let copied ← (List.range rows).mapM fun row =>
    part .outOfRange weights (row * cols + offset) (row * cols + offset + size)
  return copied.flatten

def partitionRowParallel (weights : List R) (bias : Option (List R)) (inFeatures outFeatures numShards : Nat) :
    Except Panic (List (ShardedLinear R)) :=
  (List.range numShards).mapM fun shardId => do
    let info ← ShardInfo.new shardId numShards inFeatures .input
    let shardWeights ← copyColumns weights outFeatures inFeatures info.offset info.size
    return ⟨shardWeights, if info.isLastShard then bias else none, info, inFeatures, outFeatures⟩

/-- The sums with the elements of a partial result, as far as it reaches. -/
def addInto : List R → List R → List R
  | [], _ => []
  | result, [] => result
  | first :: result, value :: partialResult => (first + value) :: addInto result partialResult

def allReduce (partials : List (List R)) : List R :=
  match partials with
  | [] => []
  | first :: _ => partials.foldl addInto (List.replicate first.length 0)

def allGather (partials : List (List R)) : List R := partials.flatten

def tensorParallelForward (shards : List (ShardedLinear R)) (input : List R) (parallelMode : TensorParallelMode) :
    Except Panic (List R) := do
  let partials ← shards.mapM fun shard => shard.forward input
  match parallelMode with
  | .columnParallel => return allGather partials
  | .rowParallel => return allReduce partials

end Pictor.Sharding

namespace Pictor.Sharding
open Tiling

variable {R : Type} [Semiring R]

/-- The first devices take one more than the others until the remainder is used up. -/
def rankStart (total worldSize rank : Nat) : Nat := rank * (total / worldSize) + min rank (total % worldSize)

def rankSize (total worldSize rank : Nat) : Nat :=
  total / worldSize + if rank < total % worldSize then 1 else 0

def partitionWeightsColumn (weights : List R) (rows cols worldSize : Nat) : Except Panic (List (List R)) :=
  if worldSize = 0 then .ok []
  else
    (List.range worldSize).mapM fun rank =>
      copyColumns weights rows cols (rankStart cols worldSize rank) (rankSize cols worldSize rank)

def partitionWeightsRow (weights : List R) (rows cols worldSize : Nat) : Except Panic (List (List R)) :=
  if worldSize = 0 then .ok []
  else
    (List.range worldSize).mapM fun rank =>
      let rowStart := rankStart rows worldSize rank
      part .outOfRange weights (rowStart * cols) ((rowStart + rankSize rows worldSize rank) * cols)

/-- The rows of a shard are copied behind the columns before it. -/
def mergeShard (rows totalCols : Nat) (shard result : List R) (colOffset : Nat) : Except Panic (List R) :=
  let shardCols := shard.length / rows
  (List.range rows).foldlM (fun result row => do
    let dstStart := row * totalCols + colOffset
    let source ← part .outOfRange shard (row * shardCols) (row * shardCols + shardCols)
    onPart .outOfRange dstStart (dstStart + shardCols) (copyOver .lengthMismatch source) result) result

def mergeColumnShards (shards : List (List R)) (rows : Nat) : Except Panic (List R) :=
  if shards = [] ∨ rows = 0 then .ok []
  else do
    let totalCols := (shards.map fun shard => shard.length / rows).sum
    let (result, _) ← shards.foldlM (fun (result, colOffset) shard => do
      let result ← mergeShard rows totalCols shard result colOffset
      return (result, colOffset + shard.length / rows)) (List.replicate (rows * totalCols) 0, 0)
    return result

end Pictor.Sharding
