/-
Instants are nanoseconds, and the idle times of one pass over the cache are taken at one instant. The list of a map is
its iteration order.
-/

import Mathlib

namespace Pictor

variable {Config : Type}

structure ModelEntry (Config : Type) where
  config : Config
  modelPath : Option String
  loadedAt : Nat
  lastUsed : Nat
  useCount : Nat
  memoryBytes : Nat

namespace ModelEntry

/-- The duration since a later instant is zero. -/
def idleTime (entry : ModelEntry Config) (now : Nat) : Nat := now - entry.lastUsed

def isStale (entry : ModelEntry Config) (ttl now : Nat) : Bool := ttl ≤ entry.idleTime now

/-- Idle times are compared in whole microseconds. -/
def idleMicros (entry : ModelEntry Config) (now : Nat) : Nat := entry.idleTime now / 1000

end ModelEntry

structure ModelCacheConfig where
  maxModels : Nat
  ttl : Nat
  evictOnMemoryPressure : Bool
  memoryBudgetBytes : Option Nat

abbrev ModelEntries (Config : Type) := AList fun _ : String => ModelEntry Config

structure ModelCache (Config : Type) where
  entries : ModelEntries Config
  config : ModelCacheConfig
  hits : Nat
  misses : Nat

namespace ModelCache

def new (config : ModelCacheConfig) : ModelCache Config := ⟨∅, config, 0, 0⟩

/-- The last one of several greatest items is chosen. -/
def maxByKey {Item : Type} (key : Item → Nat) : List Item → Option Item
  | [] => none
  | item :: items => some (items.foldl (fun best next => if key next < key best then best else next) item)

/-- The entry with the longest idle time is removed. -/
def evictLru (now : Nat) (entries : ModelEntries Config) : ModelEntries Config :=
  match maxByKey (fun item => item.2.idleMicros now) entries.entries with
  | none => entries
  | some item => entries.erase item.1

/-- The loop runs out of fuel where it does not end. -/
def evictSlots (maxModels now : Nat) : Nat → ModelEntries Config → Option (ModelEntries Config)
  | 0, _ => none
  | fuel + 1, entries =>
      if maxModels ≤ entries.entries.length then evictSlots maxModels now fuel (evictLru now entries)
      else some entries

/-- The sum of the sizes wraps around. -/
def totalMemory (entries : List (Sigma fun _ : String => ModelEntry Config)) : Nat :=
  (entries.map fun item => item.2.memoryBytes).sum % 2 ^ 64

/-- The projected size is not computed again. -/
def evictMemory (projected budget now : Nat) : Nat → ModelEntries Config → Option (ModelEntries Config)
  | 0, _ => none
  | fuel + 1, entries =>
      if projected > budget ∧ entries.entries ≠ [] then evictMemory projected budget now fuel (evictLru now entries)
      else some entries

def projectedMemory (entries : ModelEntries Config) (incomingBytes : Nat) : Nat :=
  min (totalMemory entries.entries + incomingBytes) (2 ^ 64 - 1)

/-- The memory budget of a configuration counts only if evictions on memory pressure are enabled. -/
def evictIfNeeded (fuel : Nat) (config : ModelCacheConfig) (now incomingBytes : Nat) (entries : ModelEntries Config) :
    Option (ModelEntries Config) :=
  match evictSlots config.maxModels now fuel entries with
  | none => none
  | some entries =>
      if config.evictOnMemoryPressure then
        match config.memoryBudgetBytes with
        | none => some entries
        | some budget => evictMemory (projectedMemory entries incomingBytes) budget now fuel entries
      else some entries

/-- A new entry is inserted when the evictions have ended. -/
def insertLoaded (fuel : Nat) (cache : ModelCache Config) (key : String) (loaded : ModelEntry Config) (now : Nat)
    (entries : ModelEntries Config) : Option (ModelEntry Config × ModelCache Config) :=
  match evictIfNeeded fuel cache.config now loaded.memoryBytes entries with
  | none => none
  | some entries => some (loaded, { cache with entries := entries.insert key loaded, misses := cache.misses + 1 })

/-- The entry is looked up at one instant, and a new entry has been loaded at a later one. -/
def getOrInsert (fuel : Nat) (cache : ModelCache Config) (key : String) (loaded : ModelEntry Config)
    (now loadedNow : Nat) : Option (ModelEntry Config × ModelCache Config) :=
  match cache.entries.lookup key with
  | none => insertLoaded fuel cache key loaded loadedNow cache.entries
  | some entry =>
      if entry.isStale cache.config.ttl now then
        insertLoaded fuel cache key loaded loadedNow (cache.entries.erase key)
      else
        let used := { entry with lastUsed := now, useCount := entry.useCount + 1 }
        some (used, { cache with entries := cache.entries.replace key used, hits := cache.hits + 1 })

def contains (cache : ModelCache Config) (key : String) (now : Nat) : Bool :=
  match cache.entries.lookup key with
  | none => false
  | some entry => ! entry.isStale cache.config.ttl now

/-- The answer says whether an entry was removed. -/
def evict (cache : ModelCache Config) (key : String) : Bool × ModelCache Config :=
  ((cache.entries.lookup key).isSome, { cache with entries := cache.entries.erase key })

/-- The answer counts the entries that were removed. -/
def evictStale (cache : ModelCache Config) (now : Nat) : Nat × ModelCache Config :=
  let kept := cache.entries.entries.filter fun item => ! item.2.isStale cache.config.ttl now
  (cache.entries.entries.length - kept.length,
    { cache with entries := ⟨kept, cache.entries.nodupKeys.sublist List.filter_sublist⟩ })

end ModelCache

end Pictor
