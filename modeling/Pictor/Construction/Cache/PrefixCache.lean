/-
Each request prepares a session, and it releases the session once.
-/

import Mathlib.Data.List.MinMax
import Pictor.Library.ArenaTrie
import Pictor.Library.Slice

namespace Pictor
open Slice

variable {Element : Type}

structure CacheBlock (Element : Type) where
  keys : List (List Element)
  values : List (List Element)
  tokenIds : List UInt32
  lastUsed : Nat
  refCount : Nat

/-- A node maps edge keys to children and may carry the index of a block. -/
abbrev TrieNode := ArenaTrie.Node UInt32 Nat

structure PrefixCache (Element : Type) where
  nodes : List TrieNode
  blocks : List (CacheBlock Element)
  occupiedBlocks : List Nat
  freeBlockPool : List Nat
  maxBlocks : Nat
  blockSize : Nat
  generation : Nat
  hits : Nat
  misses : Nat
  evictions : Nat

/-- The last element takes the place of the removed one. -/
def swapRemove {Entry : Type} (entries : List Entry) (pos : Nat) : List Entry :=
  match entries.getLast? with
  | none => entries
  | some last => (entries.set pos last).dropLast

/-- The hash of the tokens, folded to 32 bits. -/
def blockEdgeKey (tokens : List UInt32) : UInt32 :=
  let h := tokens.foldl (fun (h : UInt64) t => (h ^^^ t.toUInt64) * 0x00000100000001b3) 0xcbf29ce484222325
  ((h >>> 32) ^^^ (h &&& 0xffffffff)).toUInt32

/-- The tokens of a block, by its number. -/
def blockTokens (blockSize : Nat) (tokenIds : List UInt32) (blockNum : Nat) : List UInt32 :=
  slice tokenIds (blockNum * blockSize) blockSize

/-- The edge keys of the first blocks. -/
def prefixKeys (blockSize : Nat) (tokenIds : List UInt32) (count : Nat) : List UInt32 :=
  (List.range count).map fun blk => blockEdgeKey (blockTokens blockSize tokenIds blk)

/-- The arguments of an insertion. -/
structure Insertion (Element : Type) where
  tokenIds : List UInt32
  blockStart : Nat
  keys : List (List Element)
  values : List (List Element)

/-- The tokens that the inserted block covers. -/
def Insertion.tokens (blockSize : Nat) (insertion : Insertion Element) : List UInt32 :=
  slice insertion.tokenIds insertion.blockStart blockSize

/-- The edge keys from the root to the node of the inserted block. -/
def Insertion.path (blockSize : Nat) (insertion : Insertion Element) : List UInt32 :=
  prefixKeys blockSize insertion.tokenIds (insertion.blockStart / blockSize) ++
    [blockEdgeKey (insertion.tokens blockSize)]

namespace PrefixCache

def new (maxBlocks blockSize : Nat) : PrefixCache Element :=
  { nodes := [⟨∅, none⟩], blocks := [], occupiedBlocks := [], freeBlockPool := [], maxBlocks, blockSize
    generation := 0, hits := 0, misses := 0, evictions := 0 }

def block (cache : PrefixCache Element) (idx : Nat) : CacheBlock Element :=
  cache.blocks.getD idx ⟨[], [], [], 0, 0⟩

def len (cache : PrefixCache Element) : Nat := cache.occupiedBlocks.length

/-- A hit refreshes the stamp of the block and takes a reference to it. -/
def touch (cache : PrefixCache Element) (idx : Nat) : PrefixCache Element :=
  { cache with
    generation := cache.generation + 1
    blocks := cache.blocks.modify idx fun block =>
      { block with lastUsed := cache.generation + 1, refCount := block.refCount + 1 }
    hits := cache.hits + 1 }

def miss (cache : PrefixCache Element) : PrefixCache Element := { cache with misses := cache.misses + 1 }

/-- The loop over the full blocks, with the current node, the matched length and the matched indices. -/
def lookupLoop (tokenIds : List UInt32) : Nat → Nat → Nat → Nat × List Nat → PrefixCache Element →
    (Nat × List Nat) × PrefixCache Element
  | 0, _, _, matched, cache => (matched, cache)
  | remaining + 1, blockNum, node, matched, cache =>
      let tokens := blockTokens cache.blockSize tokenIds blockNum
      match ArenaTrie.child cache.nodes node (blockEdgeKey tokens) with
      | none => (matched, cache.miss)
      | some childNode =>
          match ArenaTrie.valueAt cache.nodes childNode with
          | none => (matched, cache.miss)
          | some idx =>
              if (cache.block idx).tokenIds ≠ tokens then (matched, cache.miss)
              else lookupLoop tokenIds remaining (blockNum + 1) childNode
                (matched.1 + cache.blockSize, matched.2 ++ [idx]) (cache.touch idx)

/-- The matched length, the indices of the matched blocks, and the state after the lookup. -/
def lookupIndices (cache : PrefixCache Element) (tokenIds : List UInt32) :
    (Nat × List Nat) × PrefixCache Element :=
  lookupLoop tokenIds (tokenIds.length / cache.blockSize) 0 0 (0, []) cache

def lookup (cache : PrefixCache Element) (tokenIds : List UInt32) :
    (Nat × List (CacheBlock Element)) × PrefixCache Element :=
  let result := cache.lookupIndices tokenIds
  ((result.1.1, result.1.2.map result.2.block), result.2)

/-- The position of the first block with the least stamp among the blocks without a reference. -/
def victimPos (cache : PrefixCache Element) : Option Nat :=
  ((cache.occupiedBlocks.zipIdx.filter fun entry => (cache.block entry.1).refCount = 0).argmin
    fun entry => (cache.block entry.1).lastUsed).map Prod.snd

/-- The first node that carries the block loses it. -/
def unlink (nodes : List TrieNode) (idx : Nat) : List TrieNode :=
  match nodes.findIdx? fun node => node.value = some idx with
  | none => nodes
  | some node => ArenaTrie.setValue nodes node none

def evictLru (cache : PrefixCache Element) : Bool × PrefixCache Element :=
  match cache.victimPos with
  | none => (false, cache)
  | some pos =>
      let victim := cache.occupiedBlocks.getD pos 0
      (true, { cache with
        occupiedBlocks := swapRemove cache.occupiedBlocks pos
        nodes := unlink cache.nodes victim
        freeBlockPool := cache.freeBlockPool ++ [victim]
        evictions := cache.evictions + 1 })

/-- The evictions of a full cache. Each success frees one occupied block, so their number bounds it. -/
def makeRoom : Nat → PrefixCache Element → PrefixCache Element
  | 0, cache => cache
  | bound + 1, cache =>
      if cache.occupiedBlocks.length < cache.maxBlocks then cache
      else if cache.evictLru.1 then makeRoom bound cache.evictLru.2
      else cache

/-- The block goes to a free slot or to a new one. -/
def place (cache : PrefixCache Element) (leaf : Nat) (block : CacheBlock Element) :
    Nat × PrefixCache Element :=
  match cache.freeBlockPool.getLast? with
  | some reuse =>
      (reuse, { cache with
        freeBlockPool := cache.freeBlockPool.dropLast
        blocks := cache.blocks.set reuse block
        nodes := ArenaTrie.setValue cache.nodes leaf (some reuse)
        occupiedBlocks := cache.occupiedBlocks ++ [reuse] })
  | none =>
      (cache.blocks.length, { cache with
        blocks := cache.blocks ++ [block]
        nodes := ArenaTrie.setValue cache.nodes leaf (some cache.blocks.length)
        occupiedBlocks := cache.occupiedBlocks ++ [cache.blocks.length] })

/-- The insertion after the evictions. -/
def store (cache : PrefixCache Element) (insertion : Insertion Element) : Nat × PrefixCache Element :=
  let descended := ArenaTrie.descend cache.nodes 0 (insertion.path cache.blockSize)
  let generation := cache.generation + 1
  place { cache with nodes := descended.2, generation } descended.1
    ⟨insertion.keys, insertion.values, insertion.tokens cache.blockSize, generation, 0⟩

def insert (cache : PrefixCache Element) (insertion : Insertion Element) :
    Nat × PrefixCache Element :=
  (cache.makeRoom cache.occupiedBlocks.length).store insertion

def release (cache : PrefixCache Element) (idx : Nat) : PrefixCache Element :=
  { cache with blocks := cache.blocks.modify idx fun block =>
    { block with refCount := block.refCount - 1 } }

/-- The statistics stay. -/
def clear (cache : PrefixCache Element) : PrefixCache Element :=
  { cache with
    nodes := [⟨∅, none⟩], blocks := [], occupiedBlocks := [], freeBlockPool := [], generation := 0 }

/-- A call of the cache. -/
inductive Operation (Element : Type) where
  | insert (insertion : Insertion Element)
  | lookup (tokenIds : List UInt32)
  | release (idx : Nat)
  | clear

def step (cache : PrefixCache Element) : Operation Element → PrefixCache Element
  | .insert insertion => (cache.insert insertion).2
  | .lookup tokenIds => (cache.lookup tokenIds).2
  | .release idx => cache.release idx
  | .clear => cache.clear

def run (cache : PrefixCache Element) (operations : List (Operation Element)) : PrefixCache Element :=
  operations.foldl step cache

end PrefixCache

end Pictor

namespace Pictor

variable {Element : Type}

/-- The keys and the values of one block. -/
abbrev KvBlockPair (Element : Type) := List (List Element) × List (List Element)

structure CacheSession where
  matchedPrefixLen : Nat
  blockIndices : List Nat
  deriving DecidableEq

structure PrefixAwarePrefill (Element : Type) where
  cache : PrefixCache Element

namespace PrefixAwarePrefill

def new (maxBlocks blockSize : Nat) : PrefixAwarePrefill Element := ⟨.new maxBlocks blockSize⟩

/-- A broken path gives the largest machine word. -/
def findBlockIdxForEdge (prefill : PrefixAwarePrefill Element) (blkNum : Nat) (tokenIds : List UInt32)
    (edgeKey : UInt32) : Nat :=
  (((ArenaTrie.walk prefill.cache.nodes 0 (prefixKeys prefill.cache.blockSize tokenIds blkNum)).bind
    fun node => ArenaTrie.child prefill.cache.nodes node edgeKey).bind
      (ArenaTrie.valueAt prefill.cache.nodes)).getD (2 ^ 64 - 1)

/-- The session, the first token that is not cached, and the state after the lookup. -/
def prepare (prefill : PrefixAwarePrefill Element) (tokenIds : List UInt32) :
    (CacheSession × Nat) × PrefixAwarePrefill Element :=
  let result := prefill.cache.lookup tokenIds
  let prefill : PrefixAwarePrefill Element := ⟨result.2⟩
  let blockIndices := (List.range result.1.2.length).map fun blkNum =>
    prefill.findBlockIdxForEdge blkNum tokenIds
      (blockEdgeKey (blockTokens prefill.cache.blockSize tokenIds blkNum))
  ((⟨result.1.1, blockIndices⟩, result.1.1), prefill)

/-- The insertions of the loop. It ends at the first incomplete block. -/
def storeInsertions (blockSize : Nat) (tokenIds : List UInt32) :
    Nat → List (KvBlockPair Element) → List (Insertion Element)
  | _, [] => []
  | blockStart, (keys, values) :: rest =>
      if tokenIds.length < blockStart + blockSize then []
      else ⟨tokenIds, blockStart, keys, values⟩ ::
        storeInsertions blockSize tokenIds (blockStart + blockSize) rest

def storeBlocks (prefill : PrefixAwarePrefill Element) (tokenIds : List UInt32) (uncachedStart : Nat)
    (keysByBlock : List (KvBlockPair Element)) : PrefixAwarePrefill Element :=
  ⟨(storeInsertions prefill.cache.blockSize tokenIds uncachedStart keysByBlock).foldl
    (fun cache insertion => (cache.insert insertion).2) prefill.cache⟩

def releaseSession (prefill : PrefixAwarePrefill Element) (session : CacheSession) :
    PrefixAwarePrefill Element :=
  ⟨session.blockIndices.foldl PrefixCache.release prefill.cache⟩

end PrefixAwarePrefill

end Pictor

namespace Pictor

variable {Element : Type}

namespace PrefixCache

/-- The blocks that the evictions of an insertion remove. -/
def roomVictims : Nat → PrefixCache Element → List Nat
  | 0, _ => []
  | bound + 1, cache =>
      if cache.occupiedBlocks.length < cache.maxBlocks then []
      else if cache.evictLru.1 then
        (cache.victimPos.bind fun pos => cache.occupiedBlocks[pos]?).toList ++
          roomVictims bound cache.evictLru.2
      else []

/-- The slots that an insertion evicts or fills. -/
def insertSlots (cache : PrefixCache Element) (insertion : Insertion Element) : List Nat :=
  cache.roomVictims cache.occupiedBlocks.length ++ [(cache.insert insertion).1]

/-- The slots that a list of insertions evicts or fills. -/
def storeSlots : List (Insertion Element) → PrefixCache Element → List Nat
  | [], _ => []
  | insertion :: rest, cache => cache.insertSlots insertion ++ storeSlots rest (cache.insert insertion).2

end PrefixCache

namespace PrefixAwarePrefill

/-- A session that is not released, with the slots that were evicted or filled since its preparation. -/
structure Outstanding where
  session : CacheSession
  disturbed : List Nat

def Outstanding.disturb (slots : List Nat) (holder : Outstanding) : Outstanding :=
  { holder with disturbed := holder.disturbed ++ slots }

structure Serving (Element : Type) where
  prefill : PrefixAwarePrefill Element
  outstanding : List Outstanding

/-- A call of any of the requests. A release names an outstanding session by its position. -/
inductive Call (Element : Type) where
  | prepare (tokenIds : List UInt32)
  | store (tokenIds : List UInt32) (uncachedStart : Nat) (keysByBlock : List (KvBlockPair Element))
  | release (pos : Nat)

namespace Serving

def new (maxBlocks blockSize : Nat) : Serving Element := ⟨.new maxBlocks blockSize, []⟩

def step (serving : Serving Element) : Call Element → Serving Element
  | .prepare tokenIds =>
      let result := serving.prefill.prepare tokenIds
      ⟨result.2, serving.outstanding ++ [⟨result.1.1, []⟩]⟩
  | .store tokenIds uncachedStart keysByBlock =>
      let slots := PrefixCache.storeSlots
        (storeInsertions serving.prefill.cache.blockSize tokenIds uncachedStart keysByBlock)
        serving.prefill.cache
      ⟨serving.prefill.storeBlocks tokenIds uncachedStart keysByBlock,
        serving.outstanding.map (Outstanding.disturb slots)⟩
  | .release pos =>
      match serving.outstanding[pos]? with
      | none => serving
      | some holder => ⟨serving.prefill.releaseSession holder.session, serving.outstanding.eraseIdx pos⟩

def run (maxBlocks blockSize : Nat) (calls : List (Call Element)) : Serving Element :=
  calls.foldl step (new maxBlocks blockSize)

end Serving

end PrefixAwarePrefill

end Pictor
