/-
Instants are nanoseconds, and the ages in one pass over the entries are taken at one instant.
-/

import Pictor.Construction.Cache.PrefixCache

namespace Pictor

/-- A fitted embedder. A prompt may have no embedding. -/
structure Embedder (Scalar : Type) where
  dim : Nat
  embed : String → Option (List Scalar)
  sized : ∀ prompt vector, embed prompt = some vector → vector.length = dim

/-- The fit of documents with a number of features, and the similarity of vectors. -/
structure Similarity (Scalar Score : Type) where
  fit : List String → Nat → Embedder Scalar
  cosine : List Scalar → List Scalar → Score

structure SemanticCacheConfig (Score : Type) where
  similarityThreshold : Score
  maxEntries : Nat
  ttl : Nat
  minPromptChars : Nat

structure CachedResponse (Score : Type) where
  response : String
  prompt : String
  similarity : Score
  createdAt : Nat
  hitCount : Nat

structure SemanticEntry (Scalar : Type) where
  prompt : String
  response : String
  vector : List Scalar
  createdAt : Nat
  lastAccessed : Nat
  hitCount : Nat

structure SemanticCache (Scalar Score : Type) where
  config : SemanticCacheConfig Score
  entries : List (SemanticEntry Scalar)
  embedder : Embedder Scalar
  allPrompts : List String
  accessClock : Nat

namespace SemanticCache

variable {Scalar Score : Type} [LinearOrder Score] (similarity : Similarity Scalar Score)

def bootstrapDim : Nat := 64

def refitBatchSize : Nat := 16

def bootstrapDocs : List String :=
  ["hello world query prompt response cache", "semantic similarity cosine embedding language model",
    "retrieval augmented generation inference rust"]

def new (config : SemanticCacheConfig Score) : SemanticCache Scalar Score :=
  ⟨config, [], similarity.fit bootstrapDocs bootstrapDim, [], 0⟩

/-- The length of a prompt is counted in bytes. -/
def isCacheable (config : SemanticCacheConfig Score) (prompt : String) : Bool :=
  config.minPromptChars ≤ prompt.utf8ByteSize

def expired (ttl now : Nat) (entry : SemanticEntry Scalar) : Bool := ttl < now - entry.createdAt

/-- The best match from an index on, after the best one so far. The first one of equal matches is kept. -/
def bestMatch (config : SemanticCacheConfig Score) (now : Nat) (query : List Scalar) :
    Option (Score × Nat) → Nat → List (SemanticEntry Scalar) → Option (Score × Nat)
  | best, _, [] => best
  | best, idx, entry :: entries =>
      if expired config.ttl now entry ∨ entry.vector.length ≠ query.length then
        bestMatch config now query best (idx + 1) entries
      else
        let score := similarity.cosine query entry.vector
        bestMatch config now query
          (if config.similarityThreshold ≤ score ∧ ∀ found ∈ best, found.1 < score then some (score, idx) else best)
          (idx + 1) entries

/-- The answer to a prompt, and the cache that has counted a hit. -/
def lookup (cache : SemanticCache Scalar Score) (prompt : String) (now : Nat) :
    Option (CachedResponse Score) × SemanticCache Scalar Score :=
  if isCacheable cache.config prompt then
    match cache.embedder.embed prompt with
    | none => (none, cache)
    | some query =>
        match bestMatch similarity cache.config now query none 0 cache.entries with
        | none => (none, cache)
        | some (score, idx) =>
            match cache.entries[idx]? with
            | none => (none, cache)
            | some entry =>
                let clock := cache.accessClock + 1
                let hit := { entry with hitCount := entry.hitCount + 1, lastAccessed := clock }
                (some ⟨entry.response, entry.prompt, score, entry.createdAt, entry.hitCount + 1⟩,
                  { cache with entries := cache.entries.set idx hit, accessClock := clock })
  else (none, cache)

/-- The embedder is fitted to all prompts, with four features for each of them between two bounds. -/
def refit (prompts : List String) : Embedder Scalar :=
  similarity.fit prompts (min (max bootstrapDim (prompts.length * 4)) 4096)

def shouldRefit (prompts : List String) : Bool := prompts.length = 1 || prompts.length % refitBatchSize = 0

/-- The embedder after a prompt has joined the other ones. -/
def embedderAfter (cache : SemanticCache Scalar Score) (prompt : String) : Embedder Scalar :=
  let prompts := cache.allPrompts ++ [prompt]
  if shouldRefit prompts then refit similarity prompts else cache.embedder

/-- The first index of the entry that was used the longest time ago. -/
def lruIdx (entries : List (SemanticEntry Scalar)) : Option Nat :=
  let times := entries.map SemanticEntry.lastAccessed
  times.min?.bind fun least => times.idxOf? least

/-- A full cache loses an entry. `none` stands for a panic on a cache that is full without entries. -/
def makeRoom (maxEntries : Nat) (entries : List (SemanticEntry Scalar)) : Option (List (SemanticEntry Scalar)) :=
  if maxEntries ≤ entries.length then (lruIdx entries).map (swapRemove entries) else some entries

def insert (cache : SemanticCache Scalar Score) (prompt response : String) (now : Nat) :
    Option (SemanticCache Scalar Score) :=
  if isCacheable cache.config prompt then
    let embedder := cache.embedderAfter similarity prompt
    let cache := { cache with embedder, allPrompts := cache.allPrompts ++ [prompt] }
    match embedder.embed prompt with
    | none => some cache
    | some vector =>
        let clock := cache.accessClock + 1
        (makeRoom cache.config.maxEntries cache.entries).map fun entries =>
          { cache with entries := entries ++ [⟨prompt, response, vector, now, clock, 0⟩], accessClock := clock }
  else some cache

def evictExpired (cache : SemanticCache Scalar Score) (now : Nat) : SemanticCache Scalar Score :=
  { cache with entries := cache.entries.filter fun entry => !expired cache.config.ttl now entry }

def clear (cache : SemanticCache Scalar Score) : SemanticCache Scalar Score :=
  { cache with entries := [], allPrompts := [] }

/-- The calls of a cache, each at its instant. -/
inductive Call where
  | lookup (prompt : String) (now : Nat)
  | insert (prompt response : String) (now : Nat)
  | evictExpired (now : Nat)
  | clear

def step (cache : SemanticCache Scalar Score) : Call → Option (SemanticCache Scalar Score)
  | .lookup prompt now => some (cache.lookup similarity prompt now).2
  | .insert prompt response now => cache.insert similarity prompt response now
  | .evictExpired now => some (cache.evictExpired now)
  | .clear => some cache.clear

end SemanticCache

end Pictor
