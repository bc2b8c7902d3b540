import Pictor.Construction.Cache.KvCache
import Pictor.Construction.Cache.PrefixCache
import Pictor.Construction.Decoding.InferenceEngine
import Pictor.Library.Utf8

namespace Pictor

structure RequestKey where
  value : UInt64
  deriving DecidableEq

namespace RequestKey

def fnvOffsetBasis : UInt64 := 14695981039346656037

def fnvPrime : UInt64 := 1099511628211

def feed (hash : UInt64) (byte : UInt8) : UInt64 := (hash ^^^ byte.toUInt64) * fnvPrime

def fnv1aHash (bytes : List UInt8) : UInt64 := bytes.foldl feed fnvOffsetBasis

def fromStr (s : List Char) : RequestKey := ⟨fnv1aHash (Utf8.encode s)⟩

/-- A message is its role, a separator, its content and another separator. -/
def feedMessage (hash : UInt64) (message : List Char × List Char) : UInt64 :=
  let hash := (Utf8.encode message.1).foldl feed hash
  let hash := feed hash 0x00
  let hash := (Utf8.encode message.2).foldl feed hash
  feed hash 0x01

def fromMessages (messages : List (List Char × List Char)) : RequestKey :=
  ⟨messages.foldl feedMessage fnvOffsetBasis⟩

end RequestKey

end Pictor

namespace Pictor.KvStore
open Tiling InferenceEngine

variable {Element Scalar Params Sampler : Type}

/-- The keys and the values of one position in every layer and every head. -/
abbrev KvEntry (Element : Type) (numLayers numKvHeads headDim : Nat) :=
  Kind → Fin numLayers → Fin numKvHeads → Fin headDim → Element

/-- The forward pass of a token computes the entry of its position from the entries before it, and the logits
from all of them. It fails for a token that has no embedding. -/
structure CpuModel (Element Scalar : Type) where
  numLayers : Nat
  numKvHeads : Nat
  headDim : Nat
  maxSeqLen : Nat
  layersPositive : 0 < numLayers
  headsPositive : 0 < numKvHeads
  embeds : UInt32 → Bool
  entry : List (KvEntry Element numLayers numKvHeads headDim) → UInt32 → KvEntry Element numLayers numKvHeads headDim
  logits : List (KvEntry Element numLayers numKvHeads headDim) → List Scalar

/-- A sampler is made from the parameters of a request, and it may fail. -/
structure Sampling (Params Scalar Sampler : Type) where
  maxTokens : Params → Nat
  new : Params → Sampler
  sample : Sampler → List Scalar → Option UInt32 × Sampler

inductive ModelError where
  | sequenceTooLong (seqLen maxCtx : Nat)
  | missingTensor
  deriving DecidableEq

abbrev CpuModel.Entry (model : CpuModel Element Scalar) :=
  KvEntry Element model.numLayers model.numKvHeads model.headDim

section Entries

variable [Zero Element] {numLayers numKvHeads headDim : Nat}

/-- The entry of a position in the arrays of a cache. -/
def KvCache.entryAt (cache : KvCache Element) (pos : Nat) : KvEntry Element numLayers numKvHeads headDim :=
  fun kind layer head col => (cache.array kind).getD (cache.cacheOffset layer head pos + col) 0

def KvCache.entriesBefore (cache : KvCache Element) (pos : Nat) :
    List (KvEntry Element numLayers numKvHeads headDim) := (List.range pos).map cache.entryAt

/-- Every layer stores the keys and the values of its heads. -/
def KvCache.storeEntry (pos : Nat) (entry : KvEntry Element numLayers numKvHeads headDim) (cache : KvCache Element) :
    Except Panic (KvCache Element) :=
  (List.finRange numLayers).foldlM (fun cache (layer : Fin numLayers) =>
    (List.finRange numKvHeads).foldlM (fun cache (head : Fin numKvHeads) => do
      let cache ← cache.storeKey layer head pos (List.ofFn (entry .key layer head))
      cache.storeValue layer head pos (List.ofFn (entry .value layer head))) cache) cache

end Entries

namespace CpuModel

variable [Zero Element] (model : CpuModel Element Scalar)

/-- A call returns the cache after it and its result. -/
abbrev Called (Element Scalar : Type) := KvCache Element × Except ModelError (List Scalar)

def forward (token : UInt32) (pos : Nat) (cache : KvCache Element) : Except Panic (Called Element Scalar) :=
  if cache.maxSeqLen ≤ pos then .ok (cache, .error (.sequenceTooLong (pos + 1) cache.maxSeqLen))
  else if !model.embeds token then .ok (cache, .error .missingTensor)
  else do
    let cache ← cache.storeEntry pos (model.entry (cache.entriesBefore pos) token)
    return (cache, .ok (model.logits (cache.entriesBefore (pos + 1))))

/-- The loop over the tokens ends at the first failure. -/
def forwardEach : List UInt32 → Nat → List Scalar → KvCache Element → Except Panic (Called Element Scalar)
  | [], _, lastLogits, cache => .ok (cache, .ok lastLogits)
  | token :: rest, pos, _, cache => do
      let called ← model.forward token pos cache
      match called.2 with
      | .error error => return (called.1, .error error)
      | .ok logits => forwardEach rest (pos + 1) logits called.1

def forwardPrefill (tokenIds : List UInt32) (posStart : Nat) (cache : KvCache Element) :
    Except Panic (Called Element Scalar) :=
  match tokenIds with
  | [] => .ok (cache, .error .missingTensor)
  | [token] => model.forward token posStart cache
  | _ => model.forwardEach tokenIds posStart [] cache

end CpuModel

structure PrefixCachedEngine (Element : Type) where
  kvCache : KvCache Element
  prefixCache : PrefixAwarePrefill Element

namespace PrefixCachedEngine

def blockLength : Nat := 16

def new [Zero Element] (model : CpuModel Element Scalar) (maxCacheBlocks : Nat) : PrefixCachedEngine Element :=
  ⟨.new model.numLayers model.numKvHeads model.headDim model.maxSeqLen, .new maxCacheBlocks blockLength⟩

/-- The layers of a block are injected one after another. -/
def restoreBlock (model : CpuModel Element Scalar) (blockStart blockSize : Nat) (block : CacheBlock Element)
    (cache : KvCache Element) : Except Panic (KvCache Element) := do
  let snapshots ← (List.range model.numLayers).mapM fun layer => do
    let keys ← getAt .outOfRange layer block.keys
    let values ← getAt .outOfRange layer block.values
    return (keys, values)
  snapshots.zipIdx.foldlM (fun cache snapshot =>
    cache.injectBlock snapshot.2 blockStart blockSize snapshot.1.1 snapshot.1.2) cache

/-- The blocks of a session are restored in their order. The index of a broken path is the index of no block, so
both kinds of index are skipped here. -/
def restore (model : CpuModel Element Scalar) (cached : PrefixCache Element) (session : CacheSession)
    (cache : KvCache Element) : Except Panic (KvCache Element) :=
  session.blockIndices.zipIdx.foldlM (fun cache entry =>
    match cached.blocks[entry.1]? with
    | none => .ok cache
    | some block => restoreBlock model (entry.2 * cached.blockSize) cached.blockSize block cache) cache

/-- A request after its prefill. -/
structure Started (Element Scalar : Type) where
  engine : PrefixCachedEngine Element
  session : CacheSession
  uncachedStart : Nat
  lastLogits : Except ModelError (List Scalar)

variable [Zero Element]

omit [Zero Element] in
/-- The blocks of a session are restored if there are any. -/
def restoreSession (model : CpuModel Element Scalar) (cached : PrefixCache Element) (session : CacheSession)
    (uncachedStart : Nat) (cache : KvCache Element) : Except Panic (KvCache Element) :=
  if 0 < uncachedStart ∧ session.blockIndices ≠ [] then do
    let restored ← restore model cached session cache
    return restored.setSeqLen uncachedStart
  else .ok cache

/-- The prompt runs from the first token that is not cached. A cached prompt runs its last token again. -/
def prefillRest (model : CpuModel Element Scalar) (promptTokens : List UInt32) (uncachedStart : Nat)
    (cache : KvCache Element) : Except Panic (CpuModel.Called Element Scalar) :=
  if uncachedStart < promptTokens.length then
    model.forwardPrefill (promptTokens.drop uncachedStart) uncachedStart cache
  else do
    let lastPos := promptTokens.length - 1
    let lastTok ← getAt .outOfRange lastPos promptTokens
    model.forward lastTok lastPos cache

def start (model : CpuModel Element Scalar) (engine : PrefixCachedEngine Element) (promptTokens : List UInt32) :
    Except Panic (Started Element Scalar) := do
  let prepared := engine.prefixCache.prepare promptTokens
  let session := prepared.1.1
  let uncachedStart := prepared.1.2
  let restored ← restoreSession model prepared.2.cache session uncachedStart engine.kvCache.clear
  let called ← prefillRest model promptTokens uncachedStart restored
  return ⟨⟨called.1, prepared.2⟩, session, uncachedStart, called.2⟩

/-- The new blocks of all layers. -/
def extractBlocks (model : CpuModel Element Scalar) (cache : KvCache Element) (uncachedStart blockSize count : Nat) :
    Except Panic (List (KvBlockPair Element)) :=
  (List.range count).mapM fun blk => do
    let layers ← (List.range model.numLayers).mapM fun layer =>
      cache.extractBlock layer (uncachedStart + blk * blockSize) blockSize
    return (layers.map Prod.fst, layers.map Prod.snd)

variable [DecidableEq Element]

/-- The full new blocks are stored if the probed keys are not all zero. -/
def storeNewBlocks (model : CpuModel Element Scalar) (promptTokens : List UInt32) (uncachedStart : Nat)
    (engine : PrefixCachedEngine Element) : Except Panic (PrefixAwarePrefill Element) := do
  let blockSize := engine.prefixCache.cache.blockSize
  let probe ← engine.kvCache.keysFor 0 0 (min promptTokens.length engine.kvCache.maxSeqLen)
  if probe.any (· ≠ 0) then do
    let count := (promptTokens.length - uncachedStart) / blockSize
    if 0 < count then do
      let blocks ← extractBlocks model engine.kvCache uncachedStart blockSize count
      return engine.prefixCache.storeBlocks promptTokens uncachedStart blocks
    else return engine.prefixCache
  else return engine.prefixCache

omit [DecidableEq Element] in
/-- The loop ends at a failure of the sampler, at the end of the sequence, or after a failed step. -/
def decodeLoop (model : CpuModel Element Scalar) (sampling : Sampling Params Scalar Sampler) :
    Nat → Nat → List Scalar → Sampler → List UInt32 → KvCache Element →
      Except Panic (List UInt32 × KvCache Element)
  | 0, _, _, _, output, cache => .ok (output, cache)
  | budget + 1, pos, lastLogits, sampler, output, cache =>
      let sampled := sampling.sample sampler lastLogits
      match sampled.1 with
      | none => .ok (output, cache)
      | some nextToken =>
          if nextToken = eosTokenId then .ok (output, cache)
          else do
            let called ← model.forward nextToken pos cache
            match called.2 with
            | .error _ => return (output ++ [nextToken], called.1)
            | .ok logits => decodeLoop model sampling budget (pos + 1) logits sampled.2 (output ++ [nextToken]) called.1

/-- The generated tokens and the engine after the request. -/
def generate (model : CpuModel Element Scalar) (sampling : Sampling Params Scalar Sampler) (params : Params)
    (promptTokens : List UInt32) (engine : PrefixCachedEngine Element) :
    Except Panic (List UInt32 × PrefixCachedEngine Element) :=
  if promptTokens = [] then .ok ([], engine)
  else do
    let started ← start model engine promptTokens
    match started.lastLogits with
    | .error _ => return ([], { started.engine with
        prefixCache := started.engine.prefixCache.releaseSession started.session })
    | .ok lastLogits => do
        let stored ← storeNewBlocks model promptTokens started.uncachedStart started.engine
        let decoded ← decodeLoop model sampling (sampling.maxTokens params) promptTokens.length lastLogits
          (sampling.new params) [] started.engine.kvCache
        return (decoded.1, ⟨decoded.2, stored.releaseSession started.session⟩)

/-- The engine after a sequence of requests. -/
def serve (model : CpuModel Element Scalar) (sampling : Sampling Params Scalar Sampler)
    (requests : List (List UInt32 × Params)) (engine : PrefixCachedEngine Element) :
    Except Panic (PrefixCachedEngine Element) :=
  requests.foldlM (fun engine request => do
    let generated ← generate model sampling request.2 request.1 engine
    return generated.2) engine

end PrefixCachedEngine

end Pictor.KvStore
