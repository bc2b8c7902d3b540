import Pictor.Library.Tiling

namespace Pictor.KvStore
open Tiling

inductive Panic where
  | outOfRange
  | lengthMismatch
  | divideByZero
  deriving DecidableEq

variable {Element : Type} [Zero Element]

structure KvCache (Element : Type) where
  numLayers : Nat
  numKvHeads : Nat
  headDim : Nat
  maxSeqLen : Nat
  seqLen : Nat
  keys : List Element
  values : List Element

/-- The caches have an array of keys and an array of values. -/
inductive Kind where
  | key
  | value
  deriving DecidableEq

def KvCache.array (cache : KvCache Element) : Kind → List Element
  | .key => cache.keys
  | .value => cache.values

namespace KvCache

def new (numLayers numKvHeads headDim maxSeqLen : Nat) : KvCache Element :=
  let total := numLayers * numKvHeads * maxSeqLen * headDim
  ⟨numLayers, numKvHeads, headDim, maxSeqLen, 0, List.replicate total 0, List.replicate total 0⟩

def cacheOffset (cache : KvCache Element) (layer head pos : Nat) : Nat :=
  ((layer * cache.numKvHeads + head) * cache.maxSeqLen + pos) * cache.headDim

/-- The keys and the values are stored in the same way. -/
def store (cache : KvCache Element) (layer head pos : Nat) (vector : List Element) (array : List Element) :
    Except Panic (List Element) :=
  let offset := cache.cacheOffset layer head pos
  onPart .outOfRange offset (offset + cache.headDim) (copyOver .lengthMismatch vector) array

def storeKey (cache : KvCache Element) (layer head pos : Nat) (key : List Element) : Except Panic (KvCache Element) := do
  let keys ← cache.store layer head pos key cache.keys
  return { cache with keys }

def storeValue (cache : KvCache Element) (layer head pos : Nat) (value : List Element) :
    Except Panic (KvCache Element) := do
  let values ← cache.store layer head pos value cache.values
  return { cache with values }

def read (cache : KvCache Element) (array : List Element) (layer head seqLen : Nat) : Except Panic (List Element) :=
  let start := cache.cacheOffset layer head 0
  part .outOfRange array start (start + seqLen * cache.headDim)

def keysFor (cache : KvCache Element) : Nat → Nat → Nat → Except Panic (List Element) := cache.read cache.keys

def valuesFor (cache : KvCache Element) : Nat → Nat → Nat → Except Panic (List Element) := cache.read cache.values

def advance (cache : KvCache Element) : KvCache Element := { cache with seqLen := cache.seqLen + 1 }

def clear (cache : KvCache Element) : KvCache Element := { cache with seqLen := 0 }

def setSeqLen (cache : KvCache Element) (n : Nat) : KvCache Element :=
  { cache with seqLen := min n cache.maxSeqLen }

/-- The rows of a block in the cache and in the block, head by head. The loop skips the positions behind the end. -/
def forBlock {State : Type} (cache : KvCache Element) (layer startPos blockSize : Nat)
    (row : Nat → Nat → State → Except Panic State) (state : State) : Except Panic State :=
  (List.range cache.numKvHeads).foldlM (fun state head =>
    (List.range blockSize).foldlM (fun state off =>
      let pos := startPos + off
      if cache.maxSeqLen ≤ pos then .ok state
      else row (cache.cacheOffset layer head pos) ((head * blockSize + off) * cache.headDim) state) state) state

/-- The copy of a row from one place to another. -/
def copyRow (cache : KvCache Element) (source : List Element) (src dst : Nat) (array : List Element) :
    Except Panic (List Element) := do
  let row ← part .outOfRange source src (src + cache.headDim)
  onPart .outOfRange dst (dst + cache.headDim) (copyOver .lengthMismatch row) array

/-- The keys and the values are extracted in the same way. -/
def extract (cache : KvCache Element) (array : List Element) (layer startPos blockSize : Nat) :
    Except Panic (List Element) :=
  cache.forBlock layer startPos blockSize (fun src dst => cache.copyRow array src dst)
    (List.replicate (cache.numKvHeads * blockSize * cache.headDim) 0)

def extractBlock (cache : KvCache Element) (layer startPos blockSize : Nat) :
    Except Panic (List Element × List Element) := do
  let keys ← cache.extract cache.keys layer startPos blockSize
  let values ← cache.extract cache.values layer startPos blockSize
  return (keys, values)

def inject (cache : KvCache Element) (block : List Element) (layer startPos blockSize : Nat) (array : List Element) :
    Except Panic (List Element) :=
  cache.forBlock layer startPos blockSize (fun dst src => cache.copyRow block src dst) array

def injectBlock (cache : KvCache Element) (layer startPos blockSize : Nat) (keys values : List Element) :
    Except Panic (KvCache Element) := do
  let keys ← cache.inject keys layer startPos blockSize cache.keys
  let values ← cache.inject values layer startPos blockSize cache.values
  return { cache with keys, values }

end KvCache

structure KvPage (Element : Type) where
  keys : List Element
  values : List Element
  used : Nat

def KvPage.new (pageSize headDim : Nat) : KvPage Element :=
  ⟨List.replicate (pageSize * headDim) 0, List.replicate (pageSize * headDim) 0, 0⟩

/-- The pages of a layer and a head are in the order of their positions. -/
structure PagedKvCache (Element : Type) where
  pages : List (List (List (KvPage Element)))
  numLayers : Nat
  numKvHeads : Nat
  headDim : Nat
  pageSize : Nat
  maxSeqLen : Nat
  seqLen : Nat

namespace PagedKvCache

def withPageSize (numLayers numKvHeads headDim maxSeqLen pageSize : Nat) : PagedKvCache Element :=
  ⟨List.replicate numLayers (List.replicate numKvHeads []), numLayers, numKvHeads, headDim, pageSize, maxSeqLen, 0⟩

/-- Pages are pushed until the page exists. -/
def ensurePage (pageSize headDim pageIdx : Nat) (headPages : List (KvPage Element)) : List (KvPage Element) :=
  if headPages.length ≤ pageIdx then
    ensurePage pageSize headDim pageIdx (headPages ++ [KvPage.new pageSize headDim])
  else headPages
termination_by pageIdx + 1 - headPages.length
decreasing_by
  rw [List.length_append, List.length_singleton]
  omega

/-- The page index of a position and its offset in the page. -/
def locate (cache : PagedKvCache Element) (pos : Nat) : Except Panic (Nat × Nat) :=
  if cache.pageSize = 0 then .error .divideByZero else .ok (pos / cache.pageSize, pos % cache.pageSize)

/-- The keys and the values are stored in the same way, in the page that is ensured first. -/
def store (cache : PagedKvCache Element) (layer head pos : Nat)
    (write : Nat → KvPage Element → Except Panic (KvPage Element)) : Except Panic (PagedKvCache Element) := do
  let (pageIdx, offsetInPage) ← cache.locate pos
  let layerPages ← getAt .outOfRange layer cache.pages
  let headPages ← getAt .outOfRange head layerPages
  let headPages := ensurePage cache.pageSize cache.headDim pageIdx headPages
  let page ← getAt .outOfRange pageIdx headPages
  let page ← write (offsetInPage * cache.headDim) page
  let page := if page.used ≤ offsetInPage then { page with used := offsetInPage + 1 } else page
  return { cache with pages := cache.pages.set layer (layerPages.set head (headPages.set pageIdx page)) }

def storeKey (cache : PagedKvCache Element) (layer head pos : Nat) (key : List Element) :
    Except Panic (PagedKvCache Element) :=
  cache.store layer head pos fun start page => do
    let keys ← onPart .outOfRange start (start + cache.headDim) (copyOver .lengthMismatch key) page.keys
    return { page with keys }

def storeValue (cache : PagedKvCache Element) (layer head pos : Nat) (value : List Element) :
    Except Panic (PagedKvCache Element) :=
  cache.store layer head pos fun start page => do
    let values ← onPart .outOfRange start (start + cache.headDim) (copyOver .lengthMismatch value) page.values
    return { page with values }

/-- The rows of the first positions, with zeros for the pages that are not allocated. -/
def read (cache : PagedKvCache Element) (array : KvPage Element → List Element) (layer head seqLen : Nat) :
    Except Panic (List Element) := do
  let layerPages ← getAt .outOfRange layer cache.pages
  let headPages ← getAt .outOfRange head layerPages
  let rows ← (List.range seqLen).mapM fun pos => do
    let (pageIdx, offsetInPage) ← cache.locate pos
    if pageIdx < headPages.length then do
      let page ← getAt .outOfRange pageIdx headPages
      let start := offsetInPage * cache.headDim
      part .outOfRange (array page) start (start + cache.headDim)
    else return List.replicate cache.headDim 0
  return rows.flatten

def keysFor (cache : PagedKvCache Element) : Nat → Nat → Nat → Except Panic (List Element) := cache.read KvPage.keys

def valuesFor (cache : PagedKvCache Element) : Nat → Nat → Nat → Except Panic (List Element) :=
  cache.read KvPage.values

def advance (cache : PagedKvCache Element) : PagedKvCache Element := { cache with seqLen := cache.seqLen + 1 }

def clear (cache : PagedKvCache Element) : PagedKvCache Element :=
  { cache with seqLen := 0, pages := cache.pages.map fun layerPages => layerPages.map fun _ => [] }

end PagedKvCache

/-- The calls on a cache. -/
inductive Call (Element : Type) where
  | storeKey (layer head pos : Nat) (key : List Element)
  | storeValue (layer head pos : Nat) (value : List Element)
  | advance
  | clear

def KvCache.step (cache : KvCache Element) : Call Element → Except Panic (KvCache Element)
  | .storeKey layer head pos key => cache.storeKey layer head pos key
  | .storeValue layer head pos value => cache.storeValue layer head pos value
  | .advance => .ok cache.advance
  | .clear => .ok cache.clear

def PagedKvCache.step (cache : PagedKvCache Element) : Call Element → Except Panic (PagedKvCache Element)
  | .storeKey layer head pos key => cache.storeKey layer head pos key
  | .storeValue layer head pos value => cache.storeValue layer head pos value
  | .advance => .ok cache.advance
  | .clear => .ok cache.clear

end Pictor.KvStore
