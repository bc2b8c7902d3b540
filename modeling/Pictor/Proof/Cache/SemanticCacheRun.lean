import Pictor.Construction.Cache.SemanticCache
import Pictor.Library.Transitions
import Pictor.Proof.Cache.PrefixArena

namespace Pictor.SemanticCache
open Transitions List

variable {Scalar Score : Type} [LinearOrder Score] {similarity : Similarity Scalar Score}
  {cache next : SemanticCache Scalar Score} {config : SemanticCacheConfig Score} {now : Nat} {query : List Scalar}
  {entries : List (SemanticEntry Scalar)}

/-- A hit is an unexpired entry. The query and the prompt of the entry are embedded by the embedder of the cache, their
similarity is reported and reaches the threshold, and no other unexpired entry that has the vector of this embedder is
more similar. -/
def Honest (similarity : Similarity Scalar Score) (cache : SemanticCache Scalar Score) (prompt : String) (now : Nat)
    (hit : CachedResponse Score) : Prop :=
  ∃ query vector, ∃ entry ∈ cache.entries, cache.embedder.embed prompt = some query ∧
    cache.embedder.embed entry.prompt = some vector ∧ now - entry.createdAt ≤ cache.config.ttl ∧
    hit = ⟨entry.response, entry.prompt, similarity.cosine query vector, entry.createdAt, entry.hitCount + 1⟩ ∧
    cache.config.similarityThreshold ≤ hit.similarity ∧
    ∀ other ∈ cache.entries, now - other.createdAt ≤ cache.config.ttl →
      cache.embedder.embed other.prompt = some other.vector → similarity.cosine query other.vector ≤ hit.similarity

/-- The cache is small enough, and the vectors of the dimension of its embedder come from this embedder. -/
structure OneFit (cache : SemanticCache Scalar Score) : Prop where
  small : cache.entries.length ≤ cache.config.maxEntries
  same : ∀ entry ∈ cache.entries, entry.vector.length = cache.embedder.dim →
    cache.embedder.embed entry.prompt = some entry.vector

/-- A cache that can be full without entries takes no prompt, and no vector that is stored has the dimension of an
embedder that replaces the one before. -/
def Ready (similarity : Similarity Scalar Score) (cache : SemanticCache Scalar Score) : Call → Prop
  | .insert prompt _ _ => isCacheable cache.config prompt → 1 ≤ cache.config.maxEntries ∧
      (shouldRefit (cache.allPrompts ++ [prompt]) → ∀ entry ∈ cache.entries,
        entry.vector.length ≠ (refit similarity (cache.allPrompts ++ [prompt]) : Embedder Scalar).dim)
  | _ => True

/-- The entry can be compared with the query at the instant. -/
def Comparable (config : SemanticCacheConfig Score) (now : Nat) (query : List Scalar) (entry : SemanticEntry Scalar) :
    Prop := now - entry.createdAt ≤ config.ttl ∧ entry.vector.length = query.length

/-- The best match so far, or a comparable entry that reaches the threshold and has no better one before or behind it. -/
theorem bestMatch_some {best : Option (Score × Nat)} {idx : Nat} {score : Score} {place : Nat}
    (found : bestMatch similarity config now query best idx entries = some (score, place)) :
    (best = some (score, place) ∨ ∃ entry, entries[place - idx]? = some entry ∧ idx ≤ place ∧
      Comparable config now query entry ∧ score = similarity.cosine query entry.vector ∧
      config.similarityThreshold ≤ score) ∧
    (∀ before ∈ best, before.1 ≤ score) ∧ ∀ entry ∈ entries, Comparable config now query entry →
      config.similarityThreshold ≤ similarity.cosine query entry.vector →
      similarity.cosine query entry.vector ≤ score := by
  induction entries generalizing best idx with
  | nil =>
      rw [bestMatch] at found
      subst found
      exact ⟨Or.inl rfl, fun _ same => by cases same; exact le_refl _, nofun⟩
  | cons entry entries ih =>
      rw [bestMatch] at found
      have behind {place : Nat} {other : SemanticEntry Scalar} (there : entries[place - (idx + 1)]? = some other)
          (later : idx + 1 ≤ place) : (entry :: entries)[place - idx]? = some other := by
        rwa [show place - idx = place - (idx + 1) + 1 by omega, getElem?_cons_succ]
      by_cases skipped : expired config.ttl now entry = true ∨ entry.vector.length ≠ query.length
      · rw [if_pos skipped] at found
        obtain ⟨source, above, most⟩ := ih found
        refine ⟨source.imp_right fun ⟨other, there, later, known⟩ =>
          ⟨other, behind there later, Nat.le_of_succ_le later, known⟩, above, forall_mem_cons.mpr
            ⟨fun ⟨young, long⟩ _ => ?_, most⟩⟩
        rcases skipped with old | short
        · exact absurd (of_decide_eq_true old) (Nat.not_lt.mpr young)
        · exact absurd long short
      · rw [if_neg skipped] at found
        obtain ⟨young, long⟩ := not_or.mp skipped
        have comparable : Comparable config now query entry :=
          ⟨Nat.not_lt.mp fun old => young (decide_eq_true old), not_not.mp long⟩
        dsimp only at found
        by_cases better : config.similarityThreshold ≤ similarity.cosine query entry.vector ∧
            ∀ found ∈ best, found.1 < similarity.cosine query entry.vector
        · rw [if_pos better] at found
          obtain ⟨source, above, most⟩ := ih found
          have here := above _ rfl
          refine ⟨Or.inr ?_, fun before same => (better.2 before same).le.trans here,
            forall_mem_cons.mpr ⟨fun _ _ => here, most⟩⟩
          rcases source with same | ⟨other, there, later, known⟩
          · obtain ⟨rfl, rfl⟩ := Prod.mk.inj (Option.some.inj same)
            exact ⟨entry, by rw [Nat.sub_self]; rfl, le_refl _, comparable, rfl, better.1⟩
          · exact ⟨other, behind there later, Nat.le_of_succ_le later, known⟩
        · rw [if_neg better] at found
          obtain ⟨source, above, most⟩ := ih found
          refine ⟨source.imp_right fun ⟨other, there, later, known⟩ =>
            ⟨other, behind there later, Nat.le_of_succ_le later, known⟩, above, forall_mem_cons.mpr
              ⟨fun _ reaches => ?_, most⟩⟩
          by_contra worse
          exact better ⟨reaches, fun before same => (above before same).trans_lt (not_le.mp worse)⟩

/-- Where the vectors come from one fit, a hit is honest. -/
theorem OneFit.honest (oneFit : OneFit cache) {prompt : String} {hit : CachedResponse Score}
    (answered : (cache.lookup similarity prompt now).1 = some hit) : Honest similarity cache prompt now hit := by
  rw [lookup] at answered
  split at answered
  · split at answered
    · cases answered
    · rename_i query embedded
      split at answered
      · cases answered
      · rename_i score idx found
        obtain ⟨source, _, most⟩ := bestMatch_some found
        obtain ⟨entry, here, _, ⟨young, long⟩, rfl, reaches⟩ := source.resolve_left (Option.some_ne_none _).symm
        rw [Nat.sub_zero] at here
        rw [here] at answered
        cases answered
        have member := mem_of_getElem? here
        have sized := cache.embedder.sized prompt query embedded
        refine ⟨query, entry.vector, entry, member, embedded, oneFit.same entry member (long.trans sized), young, rfl,
          reaches, fun other inside young' embedded' => ?_⟩
        by_cases below : cache.config.similarityThreshold ≤ similarity.cosine query other.vector
        · exact most other inside ⟨young', (cache.embedder.sized _ _ embedded').trans sized.symm⟩ below
        · exact (not_le.mp below).le.trans reaches
  · cases answered

/-- An entry can always be found where there is one. -/
theorem lruIdx_some (filled : entries ≠ []) : ∃ idx, lruIdx entries = some idx ∧ idx < entries.length := by
  obtain ⟨least, found⟩ := Option.isSome_iff_exists.mp
    (isSome_min?_of_ne_nil (show entries.map SemanticEntry.lastAccessed ≠ [] by simpa using filled))
  obtain ⟨idx, here⟩ := Option.isSome_iff_exists.mp (isSome_idxOf?.mpr (min?_mem found))
  refine ⟨idx, by rw [lruIdx, found]; exact here, ?_⟩
  have inside := (idxOf?_eq_some_iff.mp here).1
  rwa [length_map] at inside

/-- A cache with room for an entry makes room for it, and gains no other entry. -/
theorem makeRoom_some {maxEntries : Nat} (room : 1 ≤ maxEntries) (small : entries.length ≤ maxEntries) :
    ∃ kept, makeRoom maxEntries entries = some kept ∧ kept.length + 1 ≤ maxEntries ∧ kept ⊆ entries := by
  rw [makeRoom]
  by_cases full : maxEntries ≤ entries.length
  · obtain ⟨idx, found, inside⟩ := lruIdx_some (length_pos_iff.mp (Nat.lt_of_lt_of_le room full))
    have perm := PrefixCache.swapRemove_perm entries (getElem?_eq_getElem inside)
    refine ⟨swapRemove entries idx, by rw [if_pos full, found, Option.map_some], ?_, fun entry member =>
      perm.mem_iff.mpr (mem_cons_of_mem _ member)⟩
    rw [← length_cons, ← perm.length_eq]
    exact small
  · exact ⟨entries, if_neg full, by omega, List.Subset.refl _⟩

omit [LinearOrder Score] in
/-- An insertion that is ready does not panic and keeps the vectors of one fit together. -/
theorem OneFit.insert (oneFit : OneFit cache) {prompt response : String}
    (ready : Ready similarity cache (.insert prompt response now)) :
    ∃ next, cache.insert similarity prompt response now = some next ∧ OneFit next ∧ next.config = cache.config := by
  rw [SemanticCache.insert]
  by_cases cacheable : isCacheable cache.config prompt = true
  · obtain ⟨room, apart⟩ := ready cacheable
    rw [if_pos cacheable]
    dsimp only
    have same : ∀ entry ∈ cache.entries, entry.vector.length = (cache.embedderAfter similarity prompt).dim →
        (cache.embedderAfter similarity prompt).embed entry.prompt = some entry.vector := by
      rw [embedderAfter]
      split
      case isTrue refits => exact fun entry member long => absurd long (apart refits entry member)
      case isFalse => exact oneFit.same
    generalize cache.embedderAfter similarity prompt = embedder at same
    cases embedded : embedder.embed prompt with
    | none => exact ⟨_, rfl, ⟨oneFit.small, same⟩, rfl⟩
    | some vector =>
        obtain ⟨kept, made, few, subset⟩ := makeRoom_some room oneFit.small
        refine ⟨_, congrArg (Option.map _) made, ⟨by rw [length_append]; exact few, fun entry member long => ?_⟩, rfl⟩
        rcases mem_append.mp member with old | new
        · exact same entry (subset old) long
        · rw [mem_singleton.mp new]
          exact embedded
  · exact ⟨cache, if_neg cacheable, oneFit, rfl⟩

theorem OneFit.lookup (oneFit : OneFit cache) (prompt : String) :
    OneFit (cache.lookup similarity prompt now).2 ∧ (cache.lookup similarity prompt now).2.config = cache.config := by
  rw [SemanticCache.lookup]
  split
  · split
    · exact ⟨oneFit, rfl⟩
    · split
      · exact ⟨oneFit, rfl⟩
      · split
        · exact ⟨oneFit, rfl⟩
        · rename_i entry here
          refine ⟨⟨by rw [length_set]; exact oneFit.small, fun other member long => ?_⟩, rfl⟩
          rcases mem_or_eq_of_mem_set member with old | rfl
          · exact oneFit.same other old long
          · exact oneFit.same entry (mem_of_getElem? here) long
  · exact ⟨oneFit, rfl⟩

/-- A call that is ready does not panic and keeps the vectors of one fit together. -/
theorem OneFit.step (oneFit : OneFit cache) (call : Call) (ready : Ready similarity cache call) :
    ∃ next, cache.step similarity call = some next ∧ OneFit next ∧ next.config = cache.config := by
  cases call with
  | lookup prompt now => exact ⟨_, rfl, oneFit.lookup prompt⟩
  | insert prompt response now => exact oneFit.insert ready
  | evictExpired now =>
      exact ⟨_, rfl, ⟨(length_filter_le _ _).trans oneFit.small, fun entry member =>
        oneFit.same entry (mem_of_mem_filter member)⟩, rfl⟩
  | clear => exact ⟨_, rfl, ⟨Nat.zero_le _, nofun⟩, rfl⟩

/-- In a run whose calls are all ready no call panics, the number of entries is bounded, and every hit is honest. -/
theorem hits_honest (similarity : Similarity Scalar Score) (config : SemanticCacheConfig Score) (calls : List Call)
    (ready : Meets (step similarity) (Ready similarity) (new similarity config) calls) :
    ∃ cache, run (step similarity) (new similarity config) calls = some cache ∧ cache.config = config ∧
      cache.entries.length ≤ config.maxEntries ∧
      (∀ call, Ready similarity cache call → ∃ next, cache.step similarity call = some next) ∧
      ∀ prompt now hit, (cache.lookup similarity prompt now).1 = some hit → Honest similarity cache prompt now hit := by
  have keeps (cache : SemanticCache Scalar Score) (oneFit : OneFit cache) (calls : List Call)
      (ready : Meets (step similarity) (Ready similarity) cache calls) :
      ∃ last, run (step similarity) cache calls = some last ∧ OneFit last ∧ last.config = cache.config := by
    induction calls generalizing cache with
    | nil => exact ⟨cache, rfl, oneFit, rfl⟩
    | cons call calls ih =>
        obtain ⟨next, stepped, kept, settings⟩ := oneFit.step call ready.1
        obtain ⟨last, ran, final, settings'⟩ := ih next kept (ready.2 next stepped)
        exact ⟨last, run_cons.mpr ⟨next, stepped, ran⟩, final, settings'.trans settings⟩
  obtain ⟨cache, ran, oneFit, settings⟩ := keeps (new similarity config) ⟨Nat.zero_le _, nofun⟩ calls ready
  refine ⟨cache, ran, settings, ?_, fun call ready => ?_, fun prompt now hit => oneFit.honest⟩
  · have small := oneFit.small
    rwa [settings] at small
  · obtain ⟨next, stepped, _⟩ := oneFit.step call ready
    exact ⟨next, stepped⟩

/-- A fit of a corpus that embeds each prompt as the number of documents. -/
def countingSimilarity : Similarity Nat Nat where
  fit docs _ := ⟨1, fun _ => some [docs.length], fun _ _ same => by cases same; rfl⟩
  cosine _ stored := if stored = [1] then 1 else 0

theorem hits_honest_two : ∃ cache, run (step countingSimilarity) (new countingSimilarity ⟨0, 1, 10, 0⟩)
      [.insert "a" "b" 0, .lookup "a" 1] = some cache ∧ cache.config = ⟨0, 1, 10, 0⟩ ∧ cache.entries.length ≤ 1 ∧
      (∀ call, Ready countingSimilarity cache call → ∃ next, cache.step countingSimilarity call = some next) ∧
      ∀ prompt now hit, (cache.lookup countingSimilarity prompt now).1 = some hit →
        Honest countingSimilarity cache prompt now hit :=
  hits_honest countingSimilarity ⟨0, 1, 10, 0⟩ _ ⟨fun _ => ⟨le_refl 1, fun _ => nofun⟩, fun _ _ =>
    ⟨trivial, fun _ _ => trivial⟩⟩

/-- The sixteenth prompt replaces the embedder by one of the same dimension, so a vector of the first fit is compared
with a query of the second one. A cache for no entries panics on its first prompt. -/
theorem hits_mixed : (∃ cache hit, run (step countingSimilarity) (new countingSimilarity ⟨0, 20, 10, 0⟩)
      (List.replicate 16 (.insert "a" "b" 0)) = some cache ∧ (cache.lookup countingSimilarity "a" 1).1 = some hit ∧
        ¬ Honest countingSimilarity cache "a" 1 hit) ∧
    step countingSimilarity (new countingSimilarity ⟨0, 0, 10, 0⟩) (.insert "a" "b" 0) = none := by
  refine ⟨⟨_, _, rfl, rfl, ?_⟩, rfl⟩
  rintro ⟨query, vector, entry, _, _, embedded, _, same, _⟩
  cases embedded
  exact Nat.one_ne_zero (congrArg CachedResponse.similarity same)

end Pictor.SemanticCache
