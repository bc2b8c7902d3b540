import Pictor.Library.BuildArith

namespace Pictor.ChunkedPrefill
open BuildArith

inductive PrefillPriority where
  | prefillFirst
  | interleaved
  | decodePriority
  deriving DecidableEq

structure ChunkedPrefillConfig where
  chunkSize : UInt64
  overlap : UInt64
  priority : PrefillPriority

structure PrefillChunk where
  tokens : List UInt32
  startPos : Nat
  endPos : Nat
  chunkIndex : Nat
  isLast : Bool
  deriving DecidableEq

/-- A sum of two positions. A debug build stops at an overflow. -/
def addUsize (build : Build) (first second : Nat) : Option Nat :=
  if build = .debug ∧ 2 ^ 64 ≤ first + second then none else some ((first + second) % 2 ^ 64)

/-- The chunks from a start on. A slice that ends before its start stops the program. -/
def chunkLoop (build : Build) (promptTokens : List UInt32) (chunkSize stride : Nat) :
    Nat → Nat → Nat → Option (List PrefillChunk)
  | 0, _, _ => none
  | fuel + 1, start, index => do
      if start < promptTokens.length then
        let stop := min (← addUsize build start chunkSize) promptTokens.length
        if stop < start then none
        else
          let tokens := (promptTokens.drop start).take (stop - start)
          let later ← chunkLoop build promptTokens chunkSize stride fuel
            (← addUsize build start (max stride 1)) (index + 1)
          return ⟨tokens, start, stop, index, false⟩ :: later
      else return []

/-- The last chunk is marked. -/
def markLast : List PrefillChunk → List PrefillChunk
  | [] => []
  | [chunk] => [{ chunk with isLast := true }]
  | chunk :: chunks => chunk :: markLast chunks

def ChunkedPrefillConfig.size (config : ChunkedPrefillConfig) : Nat := max config.chunkSize.toNat 1

def ChunkedPrefillConfig.shared (config : ChunkedPrefillConfig) : Nat := min config.overlap.toNat (config.size - 1)

def ChunkedPrefillConfig.stride (config : ChunkedPrefillConfig) : Nat := config.size - config.shared

def createPrefillChunks (build : Build) (promptTokens : List UInt32) (config : ChunkedPrefillConfig) :
    Option (List PrefillChunk) :=
  if promptTokens = [] then some []
  else (chunkLoop build promptTokens config.size config.stride (promptTokens.length + 1) 0 0).map markLast

inductive PrefillAction where
  | prefill (chunk : PrefillChunk)
  | startDecode
  | yieldToDecode
  deriving DecidableEq

structure PrefillScheduler where
  priority : PrefillPriority
  chunks : List PrefillChunk
  currentChunk : Nat
  prefillComplete : Bool
  lastWasPrefill : Bool

namespace PrefillScheduler

def new (build : Build) (promptTokens : List UInt32) (config : ChunkedPrefillConfig) : Option PrefillScheduler :=
  (createPrefillChunks build promptTokens config).map fun chunks => ⟨config.priority, chunks, 0, false, false⟩

/-- The next chunk is handed out. -/
def prefillNext (scheduler : PrefillScheduler) (chunk : PrefillChunk) : PrefillAction × PrefillScheduler :=
  let currentChunk := scheduler.currentChunk + 1
  (.prefill chunk, { scheduler with
    currentChunk
    prefillComplete := if scheduler.chunks.length ≤ currentChunk then true else scheduler.prefillComplete
    lastWasPrefill := true })

def nextAction (scheduler : PrefillScheduler) : PrefillAction × PrefillScheduler :=
  if scheduler.prefillComplete = true then (.startDecode, scheduler)
  else
    match scheduler.chunks[scheduler.currentChunk]? with
    | none => (.startDecode, { scheduler with prefillComplete := true })
    | some chunk =>
        match scheduler.priority with
        | .prefillFirst => scheduler.prefillNext chunk
        | .interleaved =>
            if scheduler.lastWasPrefill = true ∧ scheduler.currentChunk < scheduler.chunks.length then
              (.yieldToDecode, { scheduler with lastWasPrefill := false })
            else scheduler.prefillNext chunk
        | .decodePriority =>
            if scheduler.lastWasPrefill = true then (.yieldToDecode, { scheduler with lastWasPrefill := false })
            else scheduler.prefillNext chunk

/-- The actions of as many calls. -/
def actions : Nat → PrefillScheduler → List PrefillAction
  | 0, _ => []
  | calls + 1, scheduler => scheduler.nextAction.1 :: actions calls scheduler.nextAction.2

end PrefillScheduler

end Pictor.ChunkedPrefill
