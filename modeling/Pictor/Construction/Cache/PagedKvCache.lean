import Mathlib
import Pictor.Library.Slice

namespace Pictor
open Slice

variable {Element : Type}

structure KvPage (Element : Type) where
  keys : List Element
  values : List Element
  deriving DecidableEq

def KvPage.new [Zero Element] (blockSize numKvHeads headDim : Nat) : KvPage Element :=
  let len := blockSize * numKvHeads * headDim
  ⟨List.replicate len 0, List.replicate len 0⟩

structure BlockPool (Element : Type) where
  pages : List (KvPage Element)
  freeList : List Nat
  blockSize : Nat
  numLayers : Nat
  numKvHeads : Nat
  headDim : Nat

namespace BlockPool

def new [Zero Element] (capacity blockSize numLayers numKvHeads headDim : Nat) : BlockPool Element :=
  { pages := List.replicate capacity (.new blockSize numKvHeads headDim)
    freeList := List.range capacity
    blockSize, numLayers, numKvHeads, headDim }

/-- The last free page leaves the free list. -/
def allocate (pool : BlockPool Element) : Option Nat × BlockPool Element :=
  (pool.freeList.getLast?, { pool with freeList := pool.freeList.dropLast })

/-- A page returns to the free list with its contents. -/
def free (pool : BlockPool Element) (idx : Nat) : BlockPool Element :=
  { pool with freeList := pool.freeList ++ [idx] }

def page (pool : BlockPool Element) (idx : Nat) : KvPage Element := pool.pages.getD idx ⟨[], []⟩

def slotLen (pool : BlockPool Element) : Nat := pool.numKvHeads * pool.headDim

end BlockPool

structure BlockTable where
  blockSize : Nat
  blocks : List (List Nat)
  numLayers : Nat
  deriving DecidableEq

namespace BlockTable

def new (numLayers blockSize : Nat) : BlockTable := ⟨blockSize, List.replicate numLayers [], numLayers⟩

def appendBlock (table : BlockTable) (layer physicalIdx : Nat) : BlockTable :=
  { table with blocks := table.blocks.modify layer (· ++ [physicalIdx]) }

def getBlock (table : BlockTable) (layer logicalBlock : Nat) : Option Nat :=
  table.blocks[layer]?.bind fun blocks => blocks[logicalBlock]?

def numBlocks (table : BlockTable) (layer : Nat) : Nat :=
  (table.blocks[layer]?.map List.length).getD 0

def tokenCapacity (table : BlockTable) (layer : Nat) : Nat := table.numBlocks layer * table.blockSize

end BlockTable

inductive PagedKvError where
  | sequenceNotFound (seqId : Nat)
  | outOfMemory
  | positionOutOfRange (seqId pos : Nat)
  | dimMismatch (expected actual : Nat)
  deriving DecidableEq, Repr

/-- The pool and the block table of each live sequence. -/
structure PagedKvCache (Element : Type) where
  pool : BlockPool Element
  sequences : AList fun _ : Nat => BlockTable
  nextSeqId : Nat

namespace PagedKvCache

def newWithBlockSize [Zero Element] (capacity blockSize numLayers numKvHeads headDim : Nat) :
    PagedKvCache Element :=
  { pool := .new capacity blockSize numLayers numKvHeads headDim, sequences := ∅, nextSeqId := 0 }

def new [Zero Element] (capacity numLayers numKvHeads headDim : Nat) : PagedKvCache Element :=
  newWithBlockSize capacity 16 numLayers numKvHeads headDim

def createSequence (cache : PagedKvCache Element) : Nat × PagedKvCache Element :=
  let id := cache.nextSeqId
  (id, { cache with
    nextSeqId := id + 1
    sequences := cache.sequences.insert id (.new cache.pool.numLayers cache.pool.blockSize) })

/-- The pages of each layer return to the pool in order. -/
def dropSequence (cache : PagedKvCache Element) (seqId : Nat) :
    Except PagedKvError Unit × PagedKvCache Element :=
  match cache.sequences.lookup seqId with
  | none => (.error (.sequenceNotFound seqId), cache)
  | some table =>
      (.ok (), { cache with
        sequences := cache.sequences.erase seqId
        pool := table.blocks.flatten.foldl BlockPool.free cache.pool })

/-- The number of blocks that cover the tokens. -/
def blocksNeeded (numTokens blockSize : Nat) : Nat :=
  numTokens / blockSize + if 0 < numTokens % blockSize then 1 else 0

/-- The layers that need one more block, each as often as it needs one. -/
def deficits (numLayers blocksNeeded : Nat) (table : BlockTable) : List Nat :=
  (List.range numLayers).flatMap fun layer =>
    List.replicate (blocksNeeded - table.numBlocks layer) layer

/-- Each layer of the list gets one page. An empty pool ends the loop, and earlier pages stay. -/
def allocateBlocks (cache : PagedKvCache Element) (seqId : Nat) :
    List Nat → Except PagedKvError Unit × PagedKvCache Element
  | [] => (.ok (), cache)
  | layer :: layers =>
      match cache.pool.allocate with
      | (none, _) => (.error .outOfMemory, cache)
      | (some phys, pool) =>
          match cache.sequences.lookup seqId with
          | none => (.error (.sequenceNotFound seqId), { cache with pool })
          | some table => allocateBlocks
              { cache with pool, sequences := cache.sequences.insert seqId (table.appendBlock layer phys) }
              seqId layers

def ensureCapacity (cache : PagedKvCache Element) (seqId numTokens : Nat) :
    Except PagedKvError Unit × PagedKvCache Element :=
  match cache.sequences.lookup seqId with
  | none => (.error (.sequenceNotFound seqId), cache)
  | some table => cache.allocateBlocks seqId
      (deficits cache.pool.numLayers (blocksNeeded numTokens cache.pool.blockSize) table)

/-- The physical page of a logical block. -/
def getBlock (cache : PagedKvCache Element) (seqId layer tokenPos : Nat) : Except PagedKvError Nat :=
  match cache.sequences.lookup seqId with
  | none => .error (.sequenceNotFound seqId)
  | some table =>
      match table.getBlock layer (tokenPos / cache.pool.blockSize) with
      | none => .error (.positionOutOfRange seqId tokenPos)
      | some phys => .ok phys

/-- The copy of a key and a value into one slot of a page. -/
def storeSlot (cache : PagedKvCache Element) (phys tokenPos : Nat) (key value : List Element) :
    PagedKvCache Element :=
  let offset := tokenPos % cache.pool.blockSize * cache.pool.slotLen
  { cache with pool := { cache.pool with
      pages := cache.pool.pages.modify phys fun page =>
        ⟨copyFromSlice page.keys offset key, copyFromSlice page.values offset value⟩ } }

/-- The sum of the position and one wraps at 64 bits. -/
def writeKv (cache : PagedKvCache Element) (seqId layer tokenPos : Nat) (key value : List Element) :
    Except PagedKvError Unit × PagedKvCache Element :=
  let slotLen := cache.pool.slotLen
  if key.length ≠ slotLen then (.error (.dimMismatch slotLen key.length), cache)
  else if value.length ≠ slotLen then (.error (.dimMismatch slotLen value.length), cache)
  else
    match cache.ensureCapacity seqId ((tokenPos + 1) % 2 ^ 64) with
    | (.error error, cache) => (.error error, cache)
    | (.ok _, cache) =>
        match cache.getBlock seqId layer tokenPos with
        | .error error => (.error error, cache)
        | .ok phys => (.ok (), cache.storeSlot phys tokenPos key value)

def readKv (cache : PagedKvCache Element) (seqId layer tokenPos : Nat) :
    Except PagedKvError (List Element × List Element) :=
  match cache.getBlock seqId layer tokenPos with
  | .error error => .error error
  | .ok phys =>
      let offset := tokenPos % cache.pool.blockSize * cache.pool.slotLen
      let page := cache.pool.page phys
      .ok (slice page.keys offset cache.pool.slotLen, slice page.values offset cache.pool.slotLen)

/-- A call of the cache. -/
inductive Operation (Element : Type) where
  | create
  | drop (seqId : Nat)
  | ensure (seqId numTokens : Nat)
  | write (seqId layer tokenPos : Nat) (key value : List Element)
  | read (seqId layer tokenPos : Nat)

/-- The state after a call, whatever its result is. -/
def step (cache : PagedKvCache Element) : Operation Element → PagedKvCache Element
  | .create => cache.createSequence.2
  | .drop seqId => (cache.dropSequence seqId).2
  | .ensure seqId numTokens => (cache.ensureCapacity seqId numTokens).2
  | .write seqId layer tokenPos key value => (cache.writeKv seqId layer tokenPos key value).2
  | .read _ _ _ => cache

/-- The state after a sequence of calls. -/
def run (cache : PagedKvCache Element) (operations : List (Operation Element)) : PagedKvCache Element :=
  operations.foldl step cache

end PagedKvCache

end Pictor
