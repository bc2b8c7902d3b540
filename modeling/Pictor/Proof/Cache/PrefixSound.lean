import Pictor.Proof.Cache.PrefixArena

namespace Pictor.PrefixCache
open ArenaTrie Slice List

variable {Element : Type} {source : Nat → Option (Insertion Element)}
  {cache cache' : PrefixCache Element} {tokenIds : List UInt32}

theorem prefixKeys_succ (blockSize : Nat) (tokenIds : List UInt32) (count : Nat) :
    prefixKeys blockSize tokenIds (count + 1) =
      prefixKeys blockSize tokenIds count ++ [blockEdgeKey (blockTokens blockSize tokenIds count)] := by
  rw [prefixKeys, List.range_succ, map_append]
  rfl

theorem prefixKeys_eq_iff (blockSize : Nat) (tokenIds tokenIds' : List UInt32) (count count' : Nat) :
    prefixKeys blockSize tokenIds count = prefixKeys blockSize tokenIds' count' ↔
      count = count' ∧ ∀ blk < count, blockEdgeKey (blockTokens blockSize tokenIds blk) =
        blockEdgeKey (blockTokens blockSize tokenIds' blk) := by
  constructor
  · intro same
    have length : count = count' := by simpa [prefixKeys] using congrArg List.length same
    subst length
    refine ⟨rfl, fun blk below => ?_⟩
    simpa using map_inj_left.mp same blk (mem_range.mpr below)
  · rintro ⟨rfl, same⟩
    exact map_inj_left.mpr fun blk member => same blk (mem_range.mp member)

/-- The block that a lookup finds at a block number, if the node carries the right tokens. -/
def hit (cache : PrefixCache Element) (tokenIds : List UInt32) (blockNum : Nat) : Option Nat :=
  ((walk cache.nodes 0 (prefixKeys cache.blockSize tokenIds (blockNum + 1))).bind
    (valueAt cache.nodes)).filter
      fun idx => (cache.block idx).tokenIds = blockTokens cache.blockSize tokenIds blockNum

theorem hit_eq_some {blockNum idx : Nat} : cache.hit tokenIds blockNum = some idx ↔
    (∃ node, walk cache.nodes 0 (prefixKeys cache.blockSize tokenIds (blockNum + 1)) = some node ∧
      valueAt cache.nodes node = some idx) ∧
    (cache.block idx).tokenIds = blockTokens cache.blockSize tokenIds blockNum := by
  rw [hit, Option.filter_eq_some_iff, Option.bind_eq_some_iff, decide_eq_true_eq]

theorem Keeps.hit (kept : Keeps cache cache') (tokenIds : List UInt32) (blockNum : Nat) :
    cache'.hit tokenIds blockNum = cache.hit tokenIds blockNum := by
  unfold PrefixCache.hit
  rw [kept.nodes, kept.size]
  congr 1
  funext idx
  rw [(kept.contents idx).2.2]

/-- The hits from a block number on, up to the first failure. -/
def hitRun (cache : PrefixCache Element) (tokenIds : List UInt32) : Nat → Nat → List Nat
  | 0, _ => []
  | remaining + 1, blockNum =>
      match cache.hit tokenIds blockNum with
      | none => []
      | some idx => idx :: hitRun cache tokenIds remaining (blockNum + 1)

theorem Keeps.hitRun (kept : Keeps cache cache') (tokenIds : List UInt32) (remaining blockNum : Nat) :
    cache'.hitRun tokenIds remaining blockNum = cache.hitRun tokenIds remaining blockNum := by
  induction remaining generalizing blockNum with
  | zero => rfl
  | succ remaining ih => simp only [PrefixCache.hitRun, kept.hit, ih]

/-- A block is among the hits exactly if no earlier block number fails. -/
theorem getElem?_hitRun (remaining blockNum k idx : Nat) : (cache.hitRun tokenIds remaining blockNum)[k]? = some idx ↔
      k < remaining ∧ (∀ j < k, (cache.hit tokenIds (blockNum + j)).isSome) ∧
        cache.hit tokenIds (blockNum + k) = some idx := by
  induction remaining generalizing blockNum k with
  | zero => simp [hitRun]
  | succ remaining ih =>
      rw [hitRun]
      cases found : cache.hit tokenIds blockNum with
      | none =>
          constructor
          · intro impossible
            simp at impossible
          · rintro ⟨_, earlier, here⟩
            cases k with
            | zero =>
                rw [Nat.add_zero, found] at here
                cases here
            | succ k => simpa [found] using earlier 0 (Nat.succ_pos k)
      | some first =>
          cases k with
          | zero => simp [found]
          | succ k =>
              rw [getElem?_cons_succ, ih]
              have shift (j : Nat) : blockNum + 1 + j = blockNum + (j + 1) := by omega
              simp only [shift, Nat.succ_lt_succ_iff]
              constructor
              · rintro ⟨below, earlier, here⟩
                refine ⟨below, fun j before => ?_, here⟩
                cases j with
                | zero => simp [found]
                | succ j => exact earlier j (Nat.lt_of_succ_lt_succ before)
              · rintro ⟨below, earlier, here⟩
                exact ⟨below, fun j before => earlier (j + 1) (Nat.succ_lt_succ before), here⟩

/-- The loop collects the hits, and it keeps the contents. -/
theorem lookupLoop_spec (tokenIds : List UInt32) (remaining blockNum node : Nat)
    (matched : Nat × List Nat) (cache : PrefixCache Element)
    (here : walk cache.nodes 0 (prefixKeys cache.blockSize tokenIds blockNum) = some node) :
    (lookupLoop tokenIds remaining blockNum node matched cache).1.2 =
        matched.2 ++ cache.hitRun tokenIds remaining blockNum ∧
      Keeps cache (lookupLoop tokenIds remaining blockNum node matched cache).2 := by
  induction remaining generalizing blockNum node matched cache with
  | zero => exact ⟨(append_nil _).symm, Keeps.refl cache⟩
  | succ remaining ih =>
      have next : walk cache.nodes 0 (prefixKeys cache.blockSize tokenIds (blockNum + 1)) =
          child cache.nodes node (blockEdgeKey (blockTokens cache.blockSize tokenIds blockNum)) := by
        rw [prefixKeys_succ, walk_append, here, Option.bind_some, walk]
        cases child cache.nodes node (blockEdgeKey (blockTokens cache.blockSize tokenIds blockNum)) <;> rfl
      rw [lookupLoop, hitRun]
      split
      · rename_i edge
        have missed : cache.hit tokenIds blockNum = none := by simp [PrefixCache.hit, next, edge]
        rw [missed]
        exact ⟨(append_nil _).symm, miss_keeps cache⟩
      · rename_i childNode edge
        split
        · rename_i bare
          have missed : cache.hit tokenIds blockNum = none := by
            simp [PrefixCache.hit, next, edge, bare]
          rw [missed]
          exact ⟨(append_nil _).symm, miss_keeps cache⟩
        · rename_i idx carried
          split
          · rename_i different
            have missed : cache.hit tokenIds blockNum = none := by
              simp [PrefixCache.hit, next, edge, carried, different]
            rw [missed]
            exact ⟨(append_nil _).symm, miss_keeps cache⟩
          · rename_i same
            have found : cache.hit tokenIds blockNum = some idx :=
              hit_eq_some.mpr ⟨⟨childNode, next.trans edge, carried⟩, Decidable.not_not.mp same⟩
            have touched := touch_keeps cache idx
            rw [found]
            have later := ih (blockNum + 1) childNode (matched.1 + cache.blockSize, matched.2 ++ [idx])
              (cache.touch idx) (next.trans edge)
            rw [touched.hitRun, append_assoc] at later
            exact ⟨later.1, touched.trans later.2⟩

/-- The matched length counts the tokens of the hits. -/
theorem lookupLoop_matched (tokenIds : List UInt32) (remaining blockNum node : Nat) (matched : Nat × List Nat)
    (cache : PrefixCache Element) (counted : matched.1 = matched.2.length * cache.blockSize) :
    (lookupLoop tokenIds remaining blockNum node matched cache).1.1 =
      (lookupLoop tokenIds remaining blockNum node matched cache).1.2.length * cache.blockSize := by
  induction remaining generalizing blockNum node matched cache with
  | zero => exact counted
  | succ remaining ih =>
      rw [lookupLoop]
      split
      · exact counted
      · rename_i childNode edge
        split
        · exact counted
        · rename_i idx carried
          split
          · exact counted
          · have touched := touch_keeps cache idx
            have more : (matched.1 + cache.blockSize, matched.2 ++ [idx]).1 =
                (matched.1 + cache.blockSize, matched.2 ++ [idx]).2.length * (cache.touch idx).blockSize := by
              simp only [length_append, length_singleton]
              rw [Nat.succ_mul, touched.size, counted]
            have later := ih (blockNum + 1) childNode (matched.1 + cache.blockSize, matched.2 ++ [idx])
              (cache.touch idx) more
            rw [touched.size] at later
            exact later

theorem lookupIndices_spec (cache : PrefixCache Element) (tokenIds : List UInt32) :
    (cache.lookupIndices tokenIds).1.2 = cache.hitRun tokenIds (tokenIds.length / cache.blockSize) 0 ∧
      Keeps cache (cache.lookupIndices tokenIds).2 :=
  lookupLoop_spec tokenIds _ 0 0 (0, []) cache rfl

theorem lookup_keeps (cache : PrefixCache Element) (tokenIds : List UInt32) :
    Keeps cache (cache.lookup tokenIds).2 := (lookupIndices_spec cache tokenIds).2

end Pictor.PrefixCache

namespace Pictor.PrefixCache
open ArenaTrie Slice List

variable {Element : Type} {source : Nat → Option (Insertion Element)}
  {cache : PrefixCache Element}

/-- The insertions since the last removal of all blocks. -/
def Operation.record (log : List (Insertion Element)) : Operation Element → List (Insertion Element)
  | .insert insertion => log ++ [insertion]
  | .clear => []
  | .lookup _ => log
  | .release _ => log

def insertions (operations : List (Operation Element)) : List (Insertion Element) :=
  operations.foldl Operation.record []

/-- Every record of a slot is one of the listed insertions. -/
def Logged (source : Nat → Option (Insertion Element)) (log : List (Insertion Element)) : Prop :=
  ∀ idx insertion, source idx = some insertion → insertion ∈ log

variable {log : List (Insertion Element)} {insertion : Insertion Element} {blockSize : Nat}

theorem step_logged (sourced : Sourced source cache) (logged : Logged source log) (operation : Operation Element) :
    ∃ source', Sourced source' (cache.step operation) ∧ Logged source' (operation.record log) ∧
      (cache.step operation).blockSize = cache.blockSize := by
  cases operation with
  | insert insertion =>
      refine ⟨_, insert_sourced sourced insertion, ?_, ?_⟩
      · intro idx other recorded
        by_cases same : idx = (cache.insert insertion).1
        · rw [same, Function.update_self] at recorded
          cases recorded
          exact mem_append_right _ mem_cons_self
        · rw [Function.update_of_ne same] at recorded
          exact mem_append_left _ (logged idx other recorded)
      · have stored := store_stored (makeRoom_sourced cache.occupiedBlocks.length sourced) insertion
        exact stored.size.trans (makeRoom_size _ cache)
  | lookup tokenIds =>
      have kept := lookup_keeps cache tokenIds
      exact ⟨source, sourced.keeps kept, logged, kept.size⟩
  | release idx =>
      have kept := release_keeps cache idx
      exact ⟨source, sourced.keeps kept, logged, kept.size⟩
  | clear =>
      refine ⟨_, clear_sourced cache, ?_, rfl⟩
      intro idx insertion recorded
      cases recorded

theorem foldl_logged (operations : List (Operation Element)) (sourced : Sourced source cache)
    (logged : Logged source log) : ∃ source', Sourced source' (cache.run operations) ∧
      Logged source' (operations.foldl Operation.record log) ∧
      (cache.run operations).blockSize = cache.blockSize := by
  induction operations generalizing source cache log with
  | nil => exact ⟨source, sourced, logged, rfl⟩
  | cons operation rest ih =>
      obtain ⟨source', sourced', logged', size⟩ := step_logged sourced logged operation
      obtain ⟨later, sourced'', logged'', size'⟩ := ih sourced' logged'
      exact ⟨later, sourced'', logged'', size'.trans size⟩

/-- Every run has a record of its blocks. -/
theorem run_logged (maxBlocks blockSize : Nat) (operations : List (Operation Element)) :
    ∃ source, Sourced source ((new maxBlocks blockSize).run operations) ∧ Logged source (insertions operations) ∧
      ((new maxBlocks blockSize : PrefixCache Element).run operations).blockSize = blockSize :=
  foldl_logged operations (new_sourced maxBlocks blockSize) fun _ _ recorded => nomatch recorded

theorem mem_insertions {operations : List (Operation Element)} (member : insertion ∈ insertions operations) :
    .insert insertion ∈ operations := by
  induction operations using List.reverseRecOn with
  | nil => cases member
  | append_singleton rest operation ih =>
      rw [insertions, foldl_concat] at member
      cases operation with
      | insert other =>
          rcases mem_append.mp member with earlier | last
          · exact mem_append_left _ (ih earlier)
          · rw [mem_singleton.mp last]
            exact mem_append_right _ mem_cons_self
      | lookup tokenIds => exact mem_append_left _ (ih member)
      | release idx => exact mem_append_left _ (ih member)
      | clear => cases member

/-- An aligned insertion lies at the path of its first blocks. -/
theorem path_of_aligned (aligned : blockSize ∣ insertion.blockStart) : insertion.path blockSize =
      prefixKeys blockSize insertion.tokenIds (insertion.blockStart / blockSize + 1) := by
  rw [Insertion.path, prefixKeys_succ, blockTokens, Nat.div_mul_cancel aligned, Insertion.tokens]

theorem tokens_of_aligned (aligned : blockSize ∣ insertion.blockStart) : insertion.tokens blockSize =
      blockTokens blockSize insertion.tokenIds (insertion.blockStart / blockSize) := by
  rw [Insertion.tokens, blockTokens, Nat.div_mul_cancel aligned]

/-- A block of an upper insertion agrees with every lower insertion that has the same edge keys so far:
no key of a block above another block has a collision. -/
def Separated (blockSize : Nat) (log : List (Insertion Element)) : Prop :=
  ∀ upper ∈ log, ∀ lower ∈ log, upper.blockStart / blockSize < lower.blockStart / blockSize →
    prefixKeys blockSize upper.tokenIds (upper.blockStart / blockSize + 1) =
      prefixKeys blockSize lower.tokenIds (upper.blockStart / blockSize + 1) →
    blockTokens blockSize upper.tokenIds (upper.blockStart / blockSize) =
      blockTokens blockSize lower.tokenIds (upper.blockStart / blockSize)

instance (blockSize : Nat) (log : List (Insertion Element)) : Decidable (Separated blockSize log) := by
  unfold Separated
  infer_instance

/-- A hit comes from an insertion with the same edge keys and with the tokens of its own block. -/
theorem hit_source (sourced : Sourced source cache) (logged : Logged source log)
    (aligned : ∀ insertion ∈ log, cache.blockSize ∣ insertion.blockStart) {tokenIds : List UInt32} {blockNum idx : Nat}
    (found : cache.hit tokenIds blockNum = some idx) :
    ∃ insertion ∈ log, Holds cache.blockSize insertion (cache.block idx) ∧
      insertion.blockStart / cache.blockSize = blockNum ∧
      prefixKeys cache.blockSize insertion.tokenIds (blockNum + 1) =
        prefixKeys cache.blockSize tokenIds (blockNum + 1) ∧ blockTokens cache.blockSize insertion.tokenIds blockNum =
        blockTokens cache.blockSize tokenIds blockNum := by
  obtain ⟨⟨node, walked, carried⟩, tokens⟩ := hit_eq_some.mp found
  obtain ⟨insertion, recorded, walked', holds⟩ := sourced.content node idx carried
  have member := logged idx insertion recorded
  have same := sourced.rooted.unique walked' walked
  rw [path_of_aligned (aligned insertion member)] at same
  obtain ⟨depth, _⟩ := (prefixKeys_eq_iff _ _ _ _ _).mp same
  have number : insertion.blockStart / cache.blockSize = blockNum := Nat.succ.inj depth
  refine ⟨insertion, member, holds, number, ?_, ?_⟩
  · rw [← same, number]
  · rw [← tokens, holds.tokens, tokens_of_aligned (aligned insertion member), number]

/-- Each hit of a query comes from an insertion that agrees with the query up to the end of the block. -/
theorem hitRun_source (sourced : Sourced source cache) (logged : Logged source log)
    (aligned : ∀ insertion ∈ log, cache.blockSize ∣ insertion.blockStart) (separated : Separated cache.blockSize log)
    {query : List UInt32} {i idx : Nat}
    (listed : (cache.hitRun query (query.length / cache.blockSize) 0)[i]? = some idx) :
    ∃ insertion ∈ log, Holds cache.blockSize insertion (cache.block idx) ∧
      insertion.blockStart / cache.blockSize = i ∧ (i + 1) * cache.blockSize ≤ insertion.tokenIds.length ∧
      (i + 1) * cache.blockSize ≤ query.length ∧
      insertion.tokenIds.take ((i + 1) * cache.blockSize) = query.take ((i + 1) * cache.blockSize) := by
  obtain ⟨below, earlier, found⟩ := (getElem?_hitRun _ _ _ _).mp listed
  rw [Nat.zero_add] at found
  obtain ⟨insertion, member, holds, depth, path, tokens⟩ := hit_source sourced logged aligned found
  -- The blocks before the last one agree because they carry blocks of upper insertions.
  have agrees : ∀ k < i + 1, blockTokens cache.blockSize insertion.tokenIds k =
      blockTokens cache.blockSize query k := by
    intro k inside
    rcases Nat.lt_or_eq_of_le (Nat.le_of_lt_succ inside) with before | rfl
    · obtain ⟨other, foundOther⟩ := Option.isSome_iff_exists.mp (earlier k before)
      rw [Nat.zero_add] at foundOther
      obtain ⟨upper, memberUpper, _, depthUpper, pathUpper, tokensUpper⟩ :=
        hit_source sourced logged aligned foundOther
      have above : upper.blockStart / cache.blockSize < insertion.blockStart / cache.blockSize := by
        rw [depthUpper, depth]
        exact before
      have keysAgree : prefixKeys cache.blockSize upper.tokenIds (k + 1) =
          prefixKeys cache.blockSize insertion.tokenIds (k + 1) := by
        obtain ⟨_, each⟩ := (prefixKeys_eq_iff _ _ _ _ _).mp path
        rw [pathUpper]
        apply (prefixKeys_eq_iff _ _ _ _ _).mpr
        exact ⟨rfl, fun blk inside' => (each blk (by omega)).symm⟩
      have same := separated upper memberUpper insertion member above (by rwa [depthUpper])
      rw [depthUpper] at same
      exact same.symm.trans tokensUpper
    · exact tokens
  have full : (i + 1) * cache.blockSize ≤ query.length :=
    (Nat.mul_le_mul_right _ below).trans (Nat.div_mul_le_self _ _)
  have length : (i + 1) * cache.blockSize ≤ insertion.tokenIds.length := by
    have slices := congrArg List.length tokens
    simp only [blockTokens, slice, length_take, length_drop] at slices
    have positive : 0 < cache.blockSize := by
      apply Nat.pos_of_ne_zero
      intro zero
      rw [zero, Nat.div_zero] at below
      exact Nat.not_lt_zero i below
    have room := full
    rw [Nat.succ_mul] at room ⊢
    generalize i * cache.blockSize = start at *
    omega
  exact ⟨insertion, member, holds, depth, length, full, take_eq_of_slices agrees⟩

/-- In a run whose insertions are separated, each block of a lookup holds the data of an insertion that
agrees with the query up to the end of the block. -/
theorem lookup_prefix_sound (maxBlocks blockSize : Nat) (operations : List (Operation Element))
    (aligned : ∀ insertion, .insert insertion ∈ operations → blockSize ∣ insertion.blockStart)
    (separated : Separated blockSize (insertions operations)) (query : List UInt32) (i : Nat)
    (block : CacheBlock Element)
    (returned : (((new maxBlocks blockSize).run operations).lookup query).1.2[i]? = some block) :
    ∃ insertion, .insert insertion ∈ operations ∧ block.keys = insertion.keys ∧
      block.values = insertion.values ∧ (i + 1) * blockSize ≤ insertion.tokenIds.length ∧
      insertion.tokenIds.take ((i + 1) * blockSize) = query.take ((i + 1) * blockSize) := by
  obtain ⟨source, sourced, logged, size⟩ := run_logged maxBlocks blockSize operations
  generalize (new maxBlocks blockSize : PrefixCache Element).run operations = cache at *
  subst size
  obtain ⟨indices, kept⟩ := lookupIndices_spec cache query
  have alignedLog : ∀ insertion ∈ insertions operations, cache.blockSize ∣ insertion.blockStart :=
    fun insertion member => aligned insertion (mem_insertions member)
  obtain ⟨idx, listed, rfl⟩ : ∃ idx, (cache.lookupIndices query).1.2[i]? = some idx ∧
      (cache.lookupIndices query).2.block idx = block := by
    simpa [lookup, Option.map_eq_some_iff] using returned
  rw [indices] at listed
  obtain ⟨insertion, member, holds, _, length, _, agrees⟩ := hitRun_source sourced logged alignedLog separated listed
  obtain ⟨keys, values, _⟩ := kept.contents idx
  exact ⟨insertion, mem_insertions member, keys.trans holds.keys, values.trans holds.values, length, agrees⟩

/-- Two blocks of one prompt, and a query that reads both. -/
def chainCalls : List (Operation UInt32) :=
  [.insert ⟨[1, 2, 3, 4], 0, [[5]], [[6]]⟩, .lookup [1, 2, 9], .insert ⟨[1, 2, 3, 4], 2, [[7]], [[8]]⟩]

theorem lookup_prefix_sound_chainCalls :
    ∃ block, (((new 4 2).run chainCalls).lookup [1, 2, 3, 4, 5]).1.2[1]? = some block ∧
      ∃ insertion, .insert insertion ∈ chainCalls ∧ block.keys = insertion.keys ∧
        block.values = insertion.values ∧ (1 + 1) * 2 ≤ insertion.tokenIds.length ∧
        insertion.tokenIds.take ((1 + 1) * 2) = [1, 2, 3, 4, 5].take ((1 + 1) * 2) := by
  have returned : (((new 4 2).run chainCalls).lookup [1, 2, 3, 4, 5]).1.2[1]? =
      some ⟨[[7]], [[8]], [3, 4], 5, 1⟩ := rfl
  refine ⟨_, returned, lookup_prefix_sound 4 2 chainCalls ?_ (by decide) [1, 2, 3, 4, 5] 1 _ returned⟩
  intro insertion member
  rcases mem_cons.mp member with first | member
  · cases first
    decide
  · rcases mem_cons.mp member with second | member
    · cases second
    · cases mem_singleton.mp member
      decide

/-- The blocks 10, 153 and 11, 110 have equal edge keys. The second insertion lies below the block of
the first one. -/
def collidingCalls : List (Operation UInt32) :=
  [.insert ⟨[10, 153], 0, [[5]], [[6]]⟩, .insert ⟨[11, 110, 3, 4], 2, [[7]], [[8]]⟩]

theorem collidingCalls_lookup_wrong :
    (((new 4 2).run collidingCalls).lookup [10, 153, 3, 4]).1.2.map CacheBlock.keys = [[[5]], [[7]]] ∧
      ∀ insertion ∈ insertions collidingCalls, insertion.tokenIds.take 4 ≠ [10, 153, 3, 4] := by
  decide

end Pictor.PrefixCache
