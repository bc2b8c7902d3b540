import Pictor.Proof.Cache.PrefixSound

namespace Pictor.PrefixCache
open ArenaTrie Slice List

variable {Element : Type} {source : Nat → Option (Insertion Element)}
  {cache cache' : PrefixCache Element}

/-- Every occupied block has a node. The insertion that filled it is aligned and complete, and each of
its blocks is a hit. -/
structure Supported (source : Nat → Option (Insertion Element)) (cache : PrefixCache Element) : Prop where
  sourced : Sourced source cache
  carried : ∀ idx ∈ cache.occupiedBlocks, ∃ node, valueAt cache.nodes node = some idx
  hits : ∀ node idx insertion, valueAt cache.nodes node = some idx → source idx = some insertion →
    cache.blockSize ∣ insertion.blockStart ∧
    insertion.blockStart + cache.blockSize ≤ insertion.tokenIds.length ∧
    ∀ j ≤ insertion.blockStart / cache.blockSize, (cache.hit insertion.tokenIds j).isSome

theorem Supported.keeps (supported : Supported source cache) (kept : Keeps cache cache') :
    Supported source cache' := by
  constructor
  · exact supported.sourced.keeps kept
  · rw [kept.nodes, kept.occupied]
    exact supported.carried
  · rw [kept.nodes, kept.size]
    intro node idx insertion here recorded
    simp only [kept.hit]
    exact supported.hits node idx insertion here recorded

/-- The victim of an eviction has no block below it. -/
def LeafVictim (cache : PrefixCache Element) : Prop :=
  ∀ idx path node, cache.victim = some idx → walk cache.nodes 0 path = some node →
    valueAt cache.nodes node = some idx → ∀ more node', more ≠ [] →
      walk cache.nodes 0 (path ++ more) = some node' → valueAt cache.nodes node' = none

/-- Each eviction of the loop removes a block without a block below it. -/
def RoomReady : Nat → PrefixCache Element → Prop
  | 0, _ => True
  | bound + 1, cache => cache.occupiedBlocks.length < cache.maxBlocks ∨
      (LeafVictim cache ∧ RoomReady bound cache.evictLru.2)

/-- The condition on an insertion. After the evictions each earlier block of the token list is a hit, and
the node of the new block carries none. -/
structure InsertReady (insertion : Insertion Element) (cache : PrefixCache Element) : Prop where
  room : RoomReady cache.occupiedBlocks.length cache
  aligned : cache.blockSize ∣ insertion.blockStart
  cached : ∀ j < insertion.blockStart / cache.blockSize,
    ((cache.makeRoom cache.occupiedBlocks.length).hit insertion.tokenIds j).isSome
  vacant : ∀ node, walk (cache.makeRoom cache.occupiedBlocks.length).nodes 0
      (insertion.path cache.blockSize) = some node →
    valueAt (cache.makeRoom cache.occupiedBlocks.length).nodes node = none

variable {insertion : Insertion Element}

theorem InsertReady.of_new_node (room : RoomReady cache.occupiedBlocks.length cache)
    (aligned : cache.blockSize ∣ insertion.blockStart)
    (cached : ∀ j < insertion.blockStart / cache.blockSize, ((cache.makeRoom cache.occupiedBlocks.length).hit insertion.tokenIds j).isSome)
    (missing : walk (cache.makeRoom cache.occupiedBlocks.length).nodes 0 (insertion.path cache.blockSize) = none) :
    InsertReady insertion cache := by
  refine ⟨room, aligned, cached, ?_⟩
  intro node walked
  rw [missing] at walked
  cases walked

theorem prefixKeys_append (blockSize : Nat) (tokenIds : List UInt32) {count count' : Nat}
    (shorter : count < count') : ∃ more, more ≠ [] ∧
      prefixKeys blockSize tokenIds count' = prefixKeys blockSize tokenIds count ++ more := by
  obtain ⟨extra, rfl⟩ := Nat.exists_eq_add_of_lt shorter
  refine ⟨((List.range (extra + 1)).map (count + ·)).map fun blk =>
    blockEdgeKey (blockTokens blockSize tokenIds blk), by simp, ?_⟩
  rw [prefixKeys, prefixKeys, ← map_append, Nat.add_assoc, range_add]

/-- An eviction of a block without a block below it keeps the support of the other blocks. -/
theorem Evicted.supported {victim : Nat} (evicted : Evicted victim cache cache')
    (chosen : cache.victim = some victim) (leaf : LeafVictim cache)
    (supported : Supported source cache) : Supported source cache' := by
  have distinct : (cache.occupiedBlocks ++ cache.freeBlockPool).Nodup :=
    supported.sourced.slots.nodup_iff.mpr nodup_range
  constructor
  · exact evicted.sourced supported.sourced
  · intro idx member
    have occupied := evicted.occupied.mem_iff.mpr (mem_cons_of_mem _ member)
    have different : idx ≠ victim := by
      rintro rfl
      have apart := evicted.occupied.nodup_iff.mp distinct.of_append_left
      exact (nodup_cons.mp apart).1 member
    obtain ⟨node, here⟩ := supported.carried idx occupied
    refine ⟨node, ?_⟩
    rw [evicted.values, here, if_neg fun same => different (Option.some.inj same)]
  · intro node idx insertion here recorded
    rw [evicted.values] at here
    split at here
    · cases here
    · rename_i notVictim
      obtain ⟨aligned, complete, each⟩ := supported.hits node idx insertion here recorded
      obtain ⟨other, recorded', walked, _⟩ := supported.sourced.content node idx here
      rw [recorded] at recorded'
      cases recorded'
      rw [path_of_aligned aligned] at walked
      rw [evicted.size]
      refine ⟨aligned, complete, fun j within => ?_⟩
      obtain ⟨above, found⟩ := Option.isSome_iff_exists.mp (each j within)
      obtain ⟨⟨upper, walkedUpper, carriedUpper⟩, tokens⟩ := hit_eq_some.mp found
      -- The block at an earlier number is not the victim: this block lies below it.
      have kept : valueAt cache.nodes upper ≠ some victim := by
        intro isVictim
        rcases Nat.lt_or_eq_of_le within with before | rfl
        · obtain ⟨more, nonempty, longer⟩ := prefixKeys_append cache.blockSize insertion.tokenIds
            (Nat.succ_lt_succ before)
          rw [longer] at walked
          have bare := leaf victim _ upper chosen walkedUpper isVictim more node nonempty walked
          rw [bare] at here
          cases here
        · rw [walked] at walkedUpper
          cases walkedUpper
          exact notVictim isVictim
      have found' : cache'.hit insertion.tokenIds j = some above := by
        apply hit_eq_some.mpr
        rw [evicted.size, evicted.walks, block, evicted.blocks]
        refine ⟨⟨upper, walkedUpper, ?_⟩, tokens⟩
        rw [evicted.values, if_neg kept, carriedUpper]
      rw [found']
      rfl

theorem makeRoom_supported (bound : Nat) (ready : RoomReady bound cache)
    (supported : Supported source cache) : Supported source (cache.makeRoom bound) := by
  induction bound generalizing cache with
  | zero => exact supported
  | succ bound ih =>
      rw [makeRoom]
      split
      · exact supported
      · rename_i full
        rcases ready with room | ⟨leaf, later⟩
        · exact absurd room full
        · rcases evictLru_cases supported.sourced with ⟨_, failed⟩ | ⟨idx, chosen, succeeded, evicted⟩
          · rw [failed]
            exact supported
          · rw [if_pos succeeded]
            exact ih later (evicted.supported chosen leaf supported)

/-- The storage of a block at a vacant node keeps every hit. -/
theorem Stored.hit {leaf idx : Nat} (stored : Stored insertion leaf idx cache cache') (sourced : Sourced source cache)
    (vacant : valueAt cache.nodes leaf = none) {tokenIds : List UInt32} {j above : Nat}
    (found : cache.hit tokenIds j = some above) : cache'.hit tokenIds j = some above := by
  obtain ⟨⟨upper, walked, carried⟩, tokens⟩ := hit_eq_some.mp found
  apply hit_eq_some.mpr
  rw [stored.size, stored.others above (sourced.live upper above carried)]
  refine ⟨⟨upper, stored.walks _ _ walked, ?_⟩, tokens⟩
  rw [stored.values, if_neg, carried]
  rintro rfl
  rw [vacant] at carried
  cases carried

theorem Stored.supported {leaf idx : Nat} (stored : Stored insertion leaf idx cache cache')
    (supported : Supported source cache) (aligned : cache.blockSize ∣ insertion.blockStart)
    (complete : insertion.blockStart + cache.blockSize ≤ insertion.tokenIds.length)
    (cached : ∀ j < insertion.blockStart / cache.blockSize, (cache.hit insertion.tokenIds j).isSome)
    (vacant : ∀ node, walk cache.nodes 0 (insertion.path cache.blockSize) = some node → valueAt cache.nodes node = none) :
    Supported (Function.update source idx (some insertion)) cache' := by
  have empty : valueAt cache.nodes leaf = none := by
    cases here : valueAt cache.nodes leaf with
    | none => rfl
    | some other =>
        obtain ⟨earlier, _, walked, _⟩ := supported.sourced.content leaf other here
        have same := stored.rooted.unique (stored.walks _ _ walked) stored.reached
        rw [same] at walked
        exact (here.symm.trans (vacant leaf walked))
  have keep {tokenIds : List UInt32} {j : Nat} (found : (cache.hit tokenIds j).isSome) :
      (cache'.hit tokenIds j).isSome := by
    obtain ⟨above, found⟩ := Option.isSome_iff_exists.mp found
    rw [stored.hit supported.sourced empty found]
    rfl
  constructor
  · exact stored.sourced supported.sourced
  · intro other member
    rw [stored.occupied] at member
    rcases mem_append.mp member with old | new
    · obtain ⟨node, here⟩ := supported.carried other old
      refine ⟨node, ?_⟩
      rw [stored.values, if_neg, here]
      rintro rfl
      rw [empty] at here
      cases here
    · refine ⟨leaf, ?_⟩
      rw [stored.values, if_pos rfl, mem_singleton.mp new]
  · intro node other insertion' here recorded
    rw [stored.size]
    rw [stored.values] at here
    split at here
    · cases here
      rw [Function.update_self] at recorded
      cases recorded
      refine ⟨aligned, complete, fun j within => ?_⟩
      rcases Nat.lt_or_eq_of_le within with before | rfl
      · exact keep (cached j before)
      · have found : cache'.hit insertion.tokenIds (insertion.blockStart / cache.blockSize) = some idx := by
          apply hit_eq_some.mpr
          rw [stored.size, ← path_of_aligned aligned, stored.holds.tokens, tokens_of_aligned aligned]
          refine ⟨⟨leaf, stored.reached, ?_⟩, rfl⟩
          rw [stored.values, if_pos rfl]
        rw [found]
        rfl
    · have different : other ≠ idx := by
        rintro rfl
        exact stored.fresh (supported.sourced.live node other here)
      rw [Function.update_of_ne different] at recorded
      obtain ⟨aligned', complete', each⟩ := supported.hits node other insertion' here recorded
      exact ⟨aligned', complete', fun j within => keep (each j within)⟩

/-- An insertion that meets the condition keeps every block supported. -/
theorem insert_supported (supported : Supported source cache) (ready : InsertReady insertion cache)
    (complete : insertion.blockStart + cache.blockSize ≤ insertion.tokenIds.length) :
    Supported (Function.update source (cache.insert insertion).1 (some insertion)) (cache.insert insertion).2 := by
  have room := makeRoom_supported _ ready.room supported
  have size := makeRoom_size cache.occupiedBlocks.length cache
  apply (store_stored room.sourced insertion).supported room
  · rw [size]
    exact ready.aligned
  · rw [size]
    exact complete
  · rw [size]
    exact ready.cached
  · rw [size]
    exact ready.vacant

end Pictor.PrefixCache

namespace Pictor.PrefixAwarePrefill
open ArenaTrie Slice PrefixCache List

variable {Element : Type} {source : Nat → Option (Insertion Element)} {cache : PrefixCache Element}
  {prefill : PrefixAwarePrefill Element} {maxBlocks blockSize : Nat}

/-- Each occupied block has one node, the nodes above it carry blocks, and a lookup of the tokens under
which it was stored returns it. -/
structure Usable (source : Nat → Option (Insertion Element)) (cache : PrefixCache Element) : Prop where
  distinct : cache.occupiedBlocks.Nodup
  once : ∀ idx ∈ cache.occupiedBlocks, ∃! node, valueAt cache.nodes node = some idx
  above : ∀ node idx path, valueAt cache.nodes node = some idx → walk cache.nodes 0 path = some node →
    ∀ upper, upper <+: path → upper ≠ [] →
      ∃ node' idx', walk cache.nodes 0 upper = some node' ∧ valueAt cache.nodes node' = some idx'
  found : ∀ idx ∈ cache.occupiedBlocks, ∃ insertion, source idx = some insertion ∧
    (cache.lookupIndices (insertion.tokenIds.take (insertion.blockStart + cache.blockSize))).1.2[
      insertion.blockStart / cache.blockSize]? = some idx

variable {count blockNum : Nat}

theorem prefixKeys_take (blockSize : Nat) (tokenIds : List UInt32) {count' : Nat} (inside : count ≤ count') :
    (prefixKeys blockSize tokenIds count').take count = prefixKeys blockSize tokenIds count := by
  rw [prefixKeys, prefixKeys, ← map_take, take_range, Nat.min_eq_left inside]

/-- The first tokens have the same blocks. -/
theorem blockTokens_take (blockSize : Nat) (tokenIds : List UInt32) (inside : blockNum < count) :
    blockTokens blockSize (tokenIds.take (count * blockSize)) blockNum = blockTokens blockSize tokenIds blockNum := by
  have upper : blockNum * blockSize + blockSize ≤ count * blockSize := by
    rw [← Nat.succ_mul]
    exact Nat.mul_le_mul_right _ inside
  rw [blockTokens, blockTokens, slice, slice, drop_take, take_take, Nat.min_eq_left]
  omega

theorem hit_take (cache : PrefixCache Element) (tokenIds : List UInt32) (inside : blockNum < count) :
    cache.hit (tokenIds.take (count * cache.blockSize)) blockNum = cache.hit tokenIds blockNum := by
  have keys : prefixKeys cache.blockSize (tokenIds.take (count * cache.blockSize)) (blockNum + 1) =
      prefixKeys cache.blockSize tokenIds (blockNum + 1) := by
    apply (prefixKeys_eq_iff _ _ _ _ _).mpr
    refine ⟨rfl, fun blk below => ?_⟩
    rw [blockTokens_take _ _ (by omega)]
  rw [hit, hit, keys, blockTokens_take _ _ inside]

/-- Supported blocks are usable. -/
theorem Supported.usable (supported : Supported source cache) (positive : 0 < cache.blockSize) :
    Usable source cache := by
  have distinct : (cache.occupiedBlocks ++ cache.freeBlockPool).Nodup :=
    supported.sourced.slots.nodup_iff.mpr nodup_range
  constructor
  · exact distinct.of_append_left
  · intro idx member
    obtain ⟨node, here⟩ := supported.carried idx member
    exact ⟨node, here, fun other there => supported.sourced.single other node idx there here⟩
  · intro node idx path here walked upper front nonempty
    obtain ⟨insertion, recorded, walked', _⟩ := supported.sourced.content node idx here
    obtain ⟨aligned, _, each⟩ := supported.hits node idx insertion here recorded
    have same := supported.sourced.rooted.unique walked walked'
    rw [path_of_aligned aligned] at same
    have length := front.length_le
    rw [same, prefixKeys, length_map, length_range] at length
    obtain ⟨j, count⟩ := Nat.exists_eq_succ_of_ne_zero fun zero => nonempty (length_eq_zero_iff.mp zero)
    obtain ⟨other, found⟩ := Option.isSome_iff_exists.mp (each j (by omega))
    obtain ⟨⟨node', reached, carries⟩, _⟩ := hit_eq_some.mp found
    have shorter : upper = prefixKeys cache.blockSize insertion.tokenIds (j + 1) := by
      rw [prefix_iff_eq_take.mp front, same, count]
      exact prefixKeys_take _ _ (by omega)
    rw [← shorter] at reached
    exact ⟨node', other, reached, carries⟩
  · intro idx member
    obtain ⟨node, here⟩ := supported.carried idx member
    obtain ⟨insertion, recorded, walked, _⟩ := supported.sourced.content node idx here
    obtain ⟨aligned, complete, each⟩ := supported.hits node idx insertion here recorded
    refine ⟨insertion, recorded, ?_⟩
    obtain ⟨depth, start⟩ := aligned
    have quotient : insertion.blockStart / cache.blockSize = depth := by
      rw [start, Nat.mul_div_cancel_left _ positive]
    have full : insertion.blockStart + cache.blockSize = (depth + 1) * cache.blockSize := by
      rw [start, Nat.succ_mul, Nat.mul_comm]
    rw [full] at complete
    have blocks : (insertion.tokenIds.take ((depth + 1) * cache.blockSize)).length / cache.blockSize =
        depth + 1 := by
      rw [length_take, Nat.min_eq_left complete, Nat.mul_div_cancel _ positive]
    rw [quotient] at each ⊢
    rw [full, (lookupIndices_spec _ _).1, blocks]
    apply (getElem?_hitRun _ _ _ _).mpr
    refine ⟨Nat.lt_succ_self depth, fun j before => ?_, ?_⟩
    · rw [Nat.zero_add, hit_take _ _ (Nat.lt_succ_of_lt before)]
      exact each j before.le
    · rw [Nat.zero_add, hit_take _ _ (Nat.lt_succ_self depth)]
      obtain ⟨other, found⟩ := Option.isSome_iff_exists.mp (each depth (Nat.le_refl depth))
      obtain ⟨⟨node', walked', carries⟩, _⟩ := hit_eq_some.mp found
      rw [path_of_aligned ⟨depth, start⟩, quotient, walked'] at walked
      cases walked
      rw [here] at carries
      cases carries
      exact found

/-- Each insertion of a list meets the condition in the state before it. -/
def StoresReady : List (Insertion Element) → PrefixCache Element → Prop
  | [], _ => True
  | insertion :: rest, cache => InsertReady insertion cache ∧ StoresReady rest (cache.insert insertion).2

/-- The insertion that filled each slot, after a list of insertions. -/
def storeSource : List (Insertion Element) → PrefixCache Element → (Nat → Option (Insertion Element)) →
    Nat → Option (Insertion Element)
  | [], _, source => source
  | insertion :: rest, cache, source => storeSource rest (cache.insert insertion).2
      (Function.update source (cache.insert insertion).1 (some insertion))

/-- The runs of calls in which every insertion meets the condition, with the insertion of each slot. -/
inductive ReadyRun (maxBlocks blockSize : Nat) :
    PrefixAwarePrefill Element → (Nat → Option (Insertion Element)) → Prop
  | new : ReadyRun maxBlocks blockSize (new maxBlocks blockSize) fun _ => none
  | prepare {prefill : PrefixAwarePrefill Element} {source : Nat → Option (Insertion Element)}
      (tokenIds : List UInt32) : ReadyRun maxBlocks blockSize prefill source →
      ReadyRun maxBlocks blockSize (prefill.prepare tokenIds).2 source
  | release {prefill : PrefixAwarePrefill Element} {source : Nat → Option (Insertion Element)}
      (session : CacheSession) : ReadyRun maxBlocks blockSize prefill source →
      ReadyRun maxBlocks blockSize (prefill.releaseSession session) source
  | store {prefill : PrefixAwarePrefill Element} {source : Nat → Option (Insertion Element)}
      (tokenIds : List UInt32) (uncachedStart : Nat) (keysByBlock : List (KvBlockPair Element)) :
      ReadyRun maxBlocks blockSize prefill source →
      StoresReady (storeInsertions prefill.cache.blockSize tokenIds uncachedStart keysByBlock)
        prefill.cache →
      ReadyRun maxBlocks blockSize (prefill.storeBlocks tokenIds uncachedStart keysByBlock)
        (storeSource (storeInsertions prefill.cache.blockSize tokenIds uncachedStart keysByBlock)
          prefill.cache source)

theorem foldl_release_keeps (indices : List Nat) (cache : PrefixCache Element) :
    Keeps cache (indices.foldl PrefixCache.release cache) := by
  induction indices generalizing cache with
  | nil => exact Keeps.refl cache
  | cons idx rest ih => exact (release_keeps cache idx).trans (ih _)

theorem insert_size (cache : PrefixCache Element) (supported : Supported source cache)
    (insertion : Insertion Element) : (cache.insert insertion).2.blockSize = cache.blockSize := by
  have room := makeRoom_sourced cache.occupiedBlocks.length supported.sourced
  exact (store_stored room insertion).size.trans (makeRoom_size _ cache)

theorem storeInsertions_complete (blockSize : Nat) (tokenIds : List UInt32)
    (keysByBlock : List (KvBlockPair Element)) (blockStart : Nat) :
    ∀ insertion ∈ storeInsertions blockSize tokenIds blockStart keysByBlock,
      insertion.blockStart + blockSize ≤ insertion.tokenIds.length := by
  induction keysByBlock generalizing blockStart with
  | nil =>
      intro insertion member
      cases member
  | cons pair rest ih =>
      intro insertion member
      rw [storeInsertions] at member
      split at member
      · cases member
      · rename_i within
        rcases mem_cons.mp member with rfl | later
        · exact Nat.le_of_not_lt within
        · exact ih _ insertion later

/-- A list of insertions that meet the condition keeps every block supported. -/
theorem foldl_insert_supported (insertions : List (Insertion Element)) (cache : PrefixCache Element)
    (source : Nat → Option (Insertion Element)) (supported : Supported source cache)
    (ready : StoresReady insertions cache) (complete : ∀ insertion ∈ insertions,
      insertion.blockStart + cache.blockSize ≤ insertion.tokenIds.length) :
    Supported (storeSource insertions cache source)
        (insertions.foldl (fun cache insertion => (cache.insert insertion).2) cache) ∧
      (insertions.foldl (fun cache insertion => (cache.insert insertion).2) cache).blockSize = cache.blockSize := by
  induction insertions generalizing cache source with
  | nil => exact ⟨supported, rfl⟩
  | cons insertion rest ih =>
      have next := insert_supported supported ready.1 (complete insertion mem_cons_self)
      have size := insert_size cache supported insertion
      obtain ⟨later, size'⟩ := ih _ _ next ready.2 fun other member => by
        rw [size]
        exact complete other (mem_cons_of_mem _ member)
      exact ⟨later, size'.trans size⟩

/-- Every state of a run is supported. -/
theorem ReadyRun.supported (run : ReadyRun maxBlocks blockSize prefill source) :
    Supported source prefill.cache ∧ prefill.cache.blockSize = blockSize := by
  induction run with
  | new =>
      have sourced : Sourced (fun _ => none) (PrefixCache.new maxBlocks blockSize : PrefixCache Element) :=
        new_sourced maxBlocks blockSize
      refine ⟨⟨sourced, ?_, ?_⟩, rfl⟩
      · intro idx member
        cases member
      · intro node idx insertion _ recorded
        cases recorded
  | @prepare prefill _ tokenIds _ ih =>
      have kept := lookup_keeps prefill.cache tokenIds
      exact ⟨ih.1.keeps kept, kept.size.trans ih.2⟩
  | @release prefill _ session _ ih =>
      have kept := foldl_release_keeps session.blockIndices prefill.cache
      exact ⟨ih.1.keeps kept, kept.size.trans ih.2⟩
  | store tokenIds uncachedStart keysByBlock _ ready ih =>
      obtain ⟨later, size⟩ := foldl_insert_supported _ _ _ ih.1 ready
        (storeInsertions_complete _ tokenIds keysByBlock uncachedStart)
      exact ⟨later, size.trans ih.2⟩

/-- In a run whose insertions meet the condition every live block stays usable. -/
theorem readyRun_usable (positive : 0 < blockSize) (run : ReadyRun maxBlocks blockSize prefill source) :
    Usable source prefill.cache := by
  obtain ⟨supported, size⟩ := run.supported
  exact Supported.usable supported (by rwa [size])

/-- The data of a block of one token. -/
def tokenPair (element : UInt32) : KvBlockPair UInt32 := ([[element]], [[element]])

/-- One request stores two blocks. -/
def chainRun (maxBlocks : Nat) : PrefixAwarePrefill UInt32 :=
  ((new maxBlocks 1).prepare [1, 2]).2.storeBlocks [1, 2] 0 [tokenPair 5, tokenPair 6]

theorem readyRun_usable_chainRun : ∃ source, Usable source (chainRun 4).cache := by
  let start : PrefixAwarePrefill UInt32 := ((new 4 1).prepare [1, 2]).2
  have ready : StoresReady (storeInsertions start.cache.blockSize [1, 2] 0 [tokenPair 5, tokenPair 6])
      start.cache := by
    have first : InsertReady ⟨[1, 2], 0, [[5]], [[5]]⟩ start.cache :=
      .of_new_node trivial (by decide) (by decide) (by decide)
    have second : InsertReady ⟨[1, 2], 1, [[6]], [[6]]⟩
        (start.cache.insert ⟨[1, 2], 0, [[5]], [[5]]⟩).2 :=
      .of_new_node (Or.inl (by decide)) (by decide) (by decide) (by decide)
    exact ⟨first, second, trivial⟩
  have run : ReadyRun 4 1 (chainRun 4) _ := .store [1, 2] 0 [tokenPair 5, tokenPair 6]
    (.prepare [1, 2] .new) ready
  exact ⟨_, readyRun_usable (by decide) run⟩

/-- A second request fills the cache of two blocks and evicts the first block of the chain. -/
def evictedRun : PrefixAwarePrefill UInt32 :=
  let waiting := ((chainRun 2).prepare [3]).2
  waiting.storeBlocks [3] 0 [tokenPair 7]

/-- Two requests with one prompt both store it. -/
def restoredRun : PrefixAwarePrefill UInt32 :=
  let waiting := (((new 4 1).prepare [1]).2.prepare [1]).2
  (waiting.storeBlocks [1] 0 [tokenPair 5]).storeBlocks [1] 0 [tokenPair 6]

/-- The block 1 is live below a node without a block, and a lookup of its tokens finds nothing. The
block 0 of the second run is live without a node. -/
theorem evictedRun_restoredRun_unusable : 1 ∈ evictedRun.cache.occupiedBlocks ∧
      walk evictedRun.cache.nodes 0 (prefixKeys 1 [1, 2] 1) = some 1 ∧ valueAt evictedRun.cache.nodes 1 = none ∧
      walk evictedRun.cache.nodes 0 (prefixKeys 1 [1, 2] 2) = some 2 ∧ valueAt evictedRun.cache.nodes 2 = some 1 ∧
      (evictedRun.cache.lookupIndices [1, 2]).1.2 = [] ∧ 0 ∈ restoredRun.cache.occupiedBlocks ∧
      ∀ node < restoredRun.cache.nodes.length, valueAt restoredRun.cache.nodes node ≠ some 0 := by
  decide

end Pictor.PrefixAwarePrefill
