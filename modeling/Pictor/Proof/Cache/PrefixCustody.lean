import Pictor.Proof.Cache.PrefixSound

namespace Pictor.PrefixCache
open ArenaTrie Slice PrefixAwarePrefill List

variable {Element : Type} {source : Nat → Option (Insertion Element)}
  {cache cache' : PrefixCache Element} {tokenIds : List UInt32} {outstanding : List Outstanding}

/-- The number of references to a slot. -/
def refs (cache : PrefixCache Element) (idx : Nat) : Nat := (cache.block idx).refCount

theorem refs_modify (cache : PrefixCache Element) (idx other : Nat) (inside : idx < cache.blocks.length)
    (change : CacheBlock Element → CacheBlock Element) :
    ({ cache with blocks := cache.blocks.modify idx change } : PrefixCache Element).refs other =
      if idx = other then (change (cache.block idx)).refCount else cache.refs other := by
  simp only [refs, block, getD_eq_getElem?_getD, getElem?_modify]
  by_cases same : idx = other
  · subst same
    simp [getElem?_eq_getElem inside]
  · simp [same]

variable {idx : Nat}

theorem refs_touch (inside : idx < cache.blocks.length) (other : Nat) :
    (cache.touch idx).refs other = cache.refs other + [idx].count other := by
  have changed := refs_modify cache idx other inside fun block =>
    { block with lastUsed := cache.generation + 1, refCount := block.refCount + 1 }
  change (cache.touch idx).refs other = _ at changed
  rw [changed, count_singleton]
  by_cases same : idx = other
  · simp [same, refs]
  · simp [same]

theorem refs_release (inside : idx < cache.blocks.length) (other : Nat) :
    (cache.release idx).refs other = cache.refs other - [idx].count other := by
  have changed := refs_modify cache idx other inside fun block =>
    { block with refCount := block.refCount - 1 }
  change (cache.release idx).refs other = _ at changed
  rw [changed, count_singleton]
  by_cases same : idx = other
  · simp [same, refs]
  · simp [same]

theorem count_first (idx : Nat) (rest : List Nat) (other : Nat) :
    (idx :: rest).count other = [idx].count other + rest.count other := by
  rw [← count_append, singleton_append]

/-- The releases of a session take one reference for each entry. -/
theorem refs_foldl_release (indices : List Nat) (cache : PrefixCache Element)
    (inside : ∀ idx ∈ indices, idx < cache.blocks.length) (other : Nat) :
    (indices.foldl PrefixCache.release cache).refs other = cache.refs other - indices.count other := by
  induction indices generalizing cache with
  | nil => simp
  | cons idx rest ih =>
      have kept : (cache.release idx).blocks.length = cache.blocks.length := length_modify _ _ _
      have first := refs_release (inside idx mem_cons_self) other
      rw [foldl_cons, ih, first, count_first idx rest, Nat.sub_add_eq]
      intro later member
      rw [kept]
      exact inside later (mem_cons_of_mem _ member)

theorem Sourced.occupied_inside (sourced : Sourced source cache) (member : idx ∈ cache.occupiedBlocks) :
    idx < cache.blocks.length :=
  mem_range.mp (sourced.slots.mem_iff.mp (mem_append_left _ member))

theorem Sourced.hit_occupied (sourced : Sourced source cache) {blockNum : Nat}
    (found : cache.hit tokenIds blockNum = some idx) : idx ∈ cache.occupiedBlocks := by
  obtain ⟨⟨node, _, carried⟩, _⟩ := hit_eq_some.mp found
  exact sourced.live node idx carried

/-- The hits of a lookup are different blocks, because they lie at different depths. -/
theorem Sourced.hitRun_nodup (sourced : Sourced source cache) (remaining : Nat) :
    (cache.hitRun tokenIds remaining 0).Nodup := by
  rw [nodup_iff_getElem?_ne_getElem?]
  intro i j before inside same
  obtain ⟨idx, second⟩ : ∃ idx, (cache.hitRun tokenIds remaining 0)[j]? = some idx :=
    ⟨_, getElem?_eq_getElem inside⟩
  rw [second] at same
  obtain ⟨⟨node, walked, carried⟩, _⟩ := hit_eq_some.mp ((getElem?_hitRun _ _ _ _).mp same).2.2
  obtain ⟨⟨node', walked', carried'⟩, _⟩ := hit_eq_some.mp ((getElem?_hitRun _ _ _ _).mp second).2.2
  rw [sourced.single node node' idx carried carried'] at walked
  have depth := (prefixKeys_eq_iff _ _ _ _ _).mp (sourced.rooted.unique walked walked')
  omega

theorem walk_prefixKeys_succ (nodes : List TrieNode) (blockSize : Nat) (tokenIds : List UInt32)
    (count : Nat) : walk nodes 0 (prefixKeys blockSize tokenIds (count + 1)) =
      (walk nodes 0 (prefixKeys blockSize tokenIds count)).bind fun node =>
        child nodes node (blockEdgeKey (blockTokens blockSize tokenIds count)) := by
  rw [prefixKeys_succ, walk_append]
  congr 1
  funext node
  rw [walk]
  cases child nodes node (blockEdgeKey (blockTokens blockSize tokenIds count)) <;> rfl

/-- The loop takes one reference to each hit. -/
theorem refs_lookupLoop (sourced : Sourced source cache) (tokenIds : List UInt32)
    (remaining blockNum node : Nat) (matched : Nat × List Nat)
    (here : walk cache.nodes 0 (prefixKeys cache.blockSize tokenIds blockNum) = some node) (other : Nat) :
    (lookupLoop tokenIds remaining blockNum node matched cache).2.refs other =
      cache.refs other + (cache.hitRun tokenIds remaining blockNum).count other := by
  induction remaining generalizing blockNum node matched cache with
  | zero => rfl
  | succ remaining ih =>
      have next := walk_prefixKeys_succ cache.nodes cache.blockSize tokenIds blockNum
      rw [here, Option.bind_some] at next
      rw [lookupLoop, hitRun]
      split
      · rename_i edge
        have missed : cache.hit tokenIds blockNum = none := by simp [PrefixCache.hit, next, edge]
        rw [missed]
        rfl
      · rename_i childNode edge
        split
        · rename_i bare
          have missed : cache.hit tokenIds blockNum = none := by
            simp [PrefixCache.hit, next, edge, bare]
          rw [missed]
          rfl
        · rename_i idx carried
          split
          · rename_i different
            have missed : cache.hit tokenIds blockNum = none := by
              simp [PrefixCache.hit, next, edge, carried, different]
            rw [missed]
            rfl
          · rename_i same
            have found : cache.hit tokenIds blockNum = some idx :=
              hit_eq_some.mpr ⟨⟨childNode, next.trans edge, carried⟩, Decidable.not_not.mp same⟩
            have inside := sourced.occupied_inside (sourced.hit_occupied found)
            have touched := touch_keeps cache idx
            have later := ih (sourced.keeps touched) (blockNum + 1) childNode
              (matched.1 + cache.blockSize, matched.2 ++ [idx]) (next.trans edge)
            rw [later, refs_touch inside, touched.hitRun, found, count_first idx (hitRun _ _ _ _),
              Nat.add_assoc]

end Pictor.PrefixCache

namespace Pictor.PrefixCache
open ArenaTrie PrefixAwarePrefill List

variable {Element : Type} {source : Nat → Option (Insertion Element)}
  {cache cache' : PrefixCache Element} {outstanding : List Outstanding}

/-- The session lists the slot. -/
def Lists (idx : Nat) (holder : Outstanding) : Bool := holder.session.blockIndices.contains idx

variable {idx : Nat}

@[simp] theorem lists_iff {holder : Outstanding} :
    Lists idx holder = true ↔ idx ∈ holder.session.blockIndices := contains_iff_mem

/-- The references to a slot are the outstanding sessions that list it. A listed block is live, and its
slot was neither evicted nor filled since the preparation of the session. -/
structure Custody (source : Nat → Option (Insertion Element)) (cache : PrefixCache Element)
    (outstanding : List Outstanding) : Prop where
  sourced : Sourced source cache
  distinct : ∀ holder ∈ outstanding, holder.session.blockIndices.Nodup
  counted : ∀ idx, cache.refs idx = outstanding.countP (Lists idx)
  live : ∀ holder ∈ outstanding, ∀ idx ∈ holder.session.blockIndices,
    idx ∈ cache.occupiedBlocks ∧ idx ∉ holder.disturbed

theorem countP_disturb (slots : List Nat) (outstanding : List Outstanding) (idx : Nat) :
    (outstanding.map (Outstanding.disturb slots)).countP (Lists idx) = outstanding.countP (Lists idx) := by
  rw [countP_map]
  rfl

theorem map_disturb (slots slots' : List Nat) (outstanding : List Outstanding) :
    (outstanding.map (Outstanding.disturb slots)).map (Outstanding.disturb slots') =
      outstanding.map (Outstanding.disturb (slots ++ slots')) := by
  rw [map_map]
  apply map_congr_left
  intro holder _
  simp only [Function.comp_apply, Outstanding.disturb, append_assoc]

theorem Custody.unlisted (custody : Custody source cache outstanding) (free : cache.refs idx = 0) :
    ∀ holder ∈ outstanding, idx ∉ holder.session.blockIndices := by
  intro holder member listed
  rw [custody.counted, countP_eq_zero] at free
  exact free holder member (lists_iff.mpr listed)

/-- A change that disturbs only slots that no session lists. -/
theorem Custody.disturb (custody : Custody source cache outstanding) {slots : List Nat}
    {source' : Nat → Option (Insertion Element)} (sourced : Sourced source' cache')
    (references : ∀ idx, cache'.refs idx = cache.refs idx)
    (unlisted : ∀ holder ∈ outstanding, ∀ idx ∈ slots, idx ∉ holder.session.blockIndices)
    (live : ∀ idx ∈ cache.occupiedBlocks, idx ∉ slots → idx ∈ cache'.occupiedBlocks) :
    Custody source' cache' (outstanding.map (Outstanding.disturb slots)) := by
  constructor
  · exact sourced
  · intro holder member
    obtain ⟨before, earlier, rfl⟩ := mem_map.mp member
    exact custody.distinct before earlier
  · intro idx
    rw [references, custody.counted, countP_disturb]
  · intro holder member idx listed
    obtain ⟨before, earlier, rfl⟩ := mem_map.mp member
    obtain ⟨occupied, kept⟩ := custody.live before earlier idx listed
    have fresh : idx ∉ slots := fun slot => unlisted before earlier idx slot listed
    refine ⟨live idx occupied fresh, ?_⟩
    change idx ∉ before.disturbed ++ slots
    rw [mem_append, not_or]
    exact ⟨kept, fresh⟩

/-- The victim of an eviction has no reference. -/
theorem refs_victim (chosen : cache.victim = some idx) : cache.refs idx = 0 := by
  obtain ⟨pos, position, present⟩ := Option.bind_eq_some_iff.mp chosen
  obtain ⟨other, present', free⟩ := victimPos_spec position
  rw [present] at present'
  cases present'
  exact free

theorem Evicted.refs (evicted : Evicted idx cache cache') (other : Nat) : cache'.refs other = cache.refs other := by
  rw [PrefixCache.refs, PrefixCache.refs, block, block, evicted.blocks]

theorem Evicted.custody (evicted : Evicted idx cache cache') (chosen : cache.victim = some idx)
    (custody : Custody source cache outstanding) :
    Custody source cache' (outstanding.map (Outstanding.disturb [idx])) := by
  apply custody.disturb (evicted.sourced custody.sourced) evicted.refs
  · intro holder member other slot
    rw [mem_singleton.mp slot]
    exact custody.unlisted (refs_victim chosen) holder member
  · intro other occupied different
    rcases mem_cons.mp (evicted.occupied.mem_iff.mp occupied) with same | later
    · exact absurd (mem_singleton.mpr same) different
    · exact later

theorem makeRoom_custody (bound : Nat) (custody : Custody source cache outstanding) :
    Custody source (cache.makeRoom bound) (outstanding.map (Outstanding.disturb (cache.roomVictims bound))) := by
  have same (outstanding : List Outstanding) : outstanding.map (Outstanding.disturb []) = outstanding := by
    rw [map_congr_left fun holder _ => by rw [Outstanding.disturb, append_nil], map_id']
  induction bound generalizing cache outstanding with
  | zero =>
      rw [roomVictims, same]
      exact custody
  | succ bound ih =>
      rw [makeRoom, roomVictims]
      split
      · rw [same]
        exact custody
      · rcases evictLru_cases custody.sourced with ⟨_, failed⟩ | ⟨idx, chosen, succeeded, evicted⟩
        · rw [failed, if_neg Bool.false_ne_true, if_neg Bool.false_ne_true, same]
          exact custody
        · change cache.victimPos.bind _ = some idx at chosen
          rw [if_pos succeeded, if_pos succeeded, chosen, Option.toList_some, ← map_disturb]
          exact ih (evicted.custody chosen custody)

/-- The new block has no reference, and the references to the other slots stay. -/
theorem refs_store (cache : PrefixCache Element) (insertion : Insertion Element) (other : Nat) :
    (cache.store insertion).2.refs other = if other = (cache.store insertion).1 then 0 else cache.refs other := by
  simp only [refs, store, place, block, getD_eq_getElem?_getD]
  split
  · rename_i reuse last
    rw [getElem?_set]
    by_cases same : other = reuse
    · subst same
      rw [if_pos rfl, if_pos rfl]
      split <;> rfl
    · rw [if_neg same, if_neg (Ne.symm same)]
  · rw [getElem?_append]
    by_cases before : other < cache.blocks.length
    · rw [if_pos before, if_neg (Nat.ne_of_lt before)]
    · rw [if_neg before]
      by_cases same : other = cache.blocks.length
      · subst same
        simp
      · have beyond : 1 ≤ other - cache.blocks.length := by omega
        rw [if_neg same, getElem?_eq_none (by simpa using beyond), getElem?_eq_none (by omega)]

theorem Stored.custody {insertion : Insertion Element} (custody : Custody source cache outstanding) :
    Custody (Function.update source (cache.store insertion).1 (some insertion)) (cache.store insertion).2
      (outstanding.map (Outstanding.disturb [(cache.store insertion).1])) := by
  have stored := store_stored custody.sourced insertion
  have unlisted : ∀ holder ∈ outstanding, (cache.store insertion).1 ∉ holder.session.blockIndices :=
    fun holder member listed => stored.fresh (custody.live holder member _ listed).1
  apply custody.disturb (stored.sourced custody.sourced)
  · intro idx
    rw [refs_store]
    split
    · rename_i same
      rw [custody.counted, same]
      apply Eq.symm
      apply countP_eq_zero.mpr
      intro holder member listed
      exact unlisted holder member (lists_iff.mp listed)
    · rfl
  · intro holder member idx slot
    rw [mem_singleton.mp slot]
    exact unlisted holder member
  · intro idx occupied _
    rw [stored.occupied]
    exact mem_append_left _ occupied

/-- An insertion disturbs only slots that no session lists. -/
theorem insert_custody (custody : Custody source cache outstanding) (insertion : Insertion Element) :
    Custody (Function.update source (cache.insert insertion).1 (some insertion)) (cache.insert insertion).2
      (outstanding.map (Outstanding.disturb (cache.insertSlots insertion))) := by
  have room := makeRoom_custody cache.occupiedBlocks.length custody
  rw [insertSlots, ← map_disturb]
  exact Stored.custody room

theorem foldl_insert_custody (insertions : List (Insertion Element)) (custody : Custody source cache outstanding) :
    ∃ source', Custody source' (insertions.foldl (fun cache insertion => (cache.insert insertion).2) cache)
      (outstanding.map (Outstanding.disturb (storeSlots insertions cache))) := by
  induction insertions generalizing cache outstanding source with
  | nil =>
      refine ⟨source, custody.disturb custody.sourced (fun _ => rfl) ?_ fun _ occupied _ => occupied⟩
      intro holder _ idx slot
      cases slot
  | cons insertion rest ih =>
      rw [storeSlots, ← map_disturb]
      exact ih (insert_custody custody insertion)

end Pictor.PrefixCache

namespace Pictor.PrefixCache
open ArenaTrie PrefixAwarePrefill List

variable {Element : Type} {source : Nat → Option (Insertion Element)}
  {cache cache' : PrefixCache Element} {outstanding : List Outstanding}

/-- The number of live blocks with a reference. -/
def pinnedBlocks (cache : PrefixCache Element) : Nat :=
  cache.occupiedBlocks.countP fun idx => cache.refs idx ≠ 0

theorem Evicted.pinned {idx : Nat} (evicted : Evicted idx cache cache')
    (chosen : cache.victim = some idx) : cache'.pinnedBlocks = cache.pinnedBlocks := by
  simp only [pinnedBlocks, evicted.refs]
  rw [evicted.occupied.countP_eq, countP_cons_of_neg]
  simp [refs_victim chosen]

theorem makeRoom_pinned (bound : Nat) (sourced : Sourced source cache) :
    (cache.makeRoom bound).pinnedBlocks = cache.pinnedBlocks := by
  induction bound generalizing cache with
  | zero => rfl
  | succ bound ih =>
      rw [makeRoom]
      split
      · rfl
      · rcases evictLru_cases sourced with ⟨_, failed⟩ | ⟨idx, chosen, succeeded, evicted⟩
        · rw [failed]
          rfl
        · rw [if_pos succeeded, ih (evicted.sourced sourced), evicted.pinned chosen]

@[simp] theorem makeRoom_capacity (bound : Nat) (cache : PrefixCache Element) :
    (cache.makeRoom bound).maxBlocks = cache.maxBlocks := by
  induction bound generalizing cache with
  | zero => rfl
  | succ bound ih =>
      rw [makeRoom]
      split
      · rfl
      · split
        · rw [ih, evictLru]
          split <;> rfl
        · rfl

theorem Stored.pinned (sourced : Sourced source cache) (insertion : Insertion Element) :
    (cache.store insertion).2.pinnedBlocks = cache.pinnedBlocks := by
  have stored := store_stored sourced insertion
  rw [pinnedBlocks, stored.occupied, countP_append, countP_singleton, pinnedBlocks,
    refs_store, if_pos rfl]
  simp only [ne_eq, not_true_eq_false, decide_false, Bool.false_eq_true, if_false, Nat.add_zero]
  apply countP_congr
  intro idx occupied
  rw [refs_store, if_neg]
  rintro rfl
  exact stored.fresh occupied

theorem insert_pinned (sourced : Sourced source cache) (insertion : Insertion Element) :
    (cache.insert insertion).2.pinnedBlocks = cache.pinnedBlocks :=
  (Stored.pinned (makeRoom_sourced _ sourced) insertion).trans (makeRoom_pinned _ sourced)

theorem insert_capacity (sourced : Sourced source cache) (insertion : Insertion Element) :
    (cache.insert insertion).2.maxBlocks = cache.maxBlocks :=
  (store_stored (makeRoom_sourced _ sourced) insertion).capacity.trans (makeRoom_capacity _ cache)

/-- Without a victim every live block has a reference. -/
theorem pinned_of_no_victim (spared : cache.victim = none) : cache.pinnedBlocks = cache.occupiedBlocks.length := by
  apply countP_eq_length.mpr
  intro idx occupied
  obtain ⟨pos, inside, rfl⟩ := mem_iff_getElem.mp occupied
  by_contra free
  rw [decide_eq_true_eq, not_not] at free
  have candidate : (cache.occupiedBlocks[pos], pos) ∈
      cache.occupiedBlocks.zipIdx.filter fun entry => (cache.block entry.1).refCount = 0 := by
    apply mem_filter.mpr
    exact ⟨mem_zipIdx_iff_getElem?.mpr (getElem?_eq_getElem inside), decide_eq_true free⟩
  cases position : cache.victimPos with
  | none =>
      rw [victimPos, Option.map_eq_none_iff, argmin_eq_none] at position
      rw [position] at candidate
      cases candidate
  | some pos =>
      obtain ⟨found, present, _⟩ := victimPos_spec position
      rw [victim, position, Option.bind_some, present] at spared
      cases spared

/-- The evictions make room if some live block or some slot has no reference. -/
theorem makeRoom_room (bound : Nat) (sourced : Sourced source cache)
    (enough : cache.occupiedBlocks.length ≤ bound) (room : cache.pinnedBlocks < cache.maxBlocks) :
    (cache.makeRoom bound).occupiedBlocks.length < cache.maxBlocks := by
  induction bound generalizing cache with
  | zero =>
      rw [makeRoom]
      omega
  | succ bound ih =>
      rw [makeRoom]
      split
      · assumption
      · rename_i full
        rcases evictLru_cases sourced with ⟨spared, failed⟩ | ⟨idx, chosen, succeeded, evicted⟩
        · have pinned := pinned_of_no_victim spared
          omega
        · have shorter := evicted.occupied.length_eq
          rw [length_cons] at shorter
          rw [← evicted.pinned chosen, ← evicted.capacity] at room
          have later := ih (evicted.sourced sourced) (by omega) room
          rw [evicted.capacity] at later
          rw [if_pos succeeded]
          exact later

/-- The live blocks after an insertion are within the capacity exactly if fewer blocks have a reference. -/
theorem insert_len_iff (sourced : Sourced source cache) (insertion : Insertion Element) :
    (cache.insert insertion).2.len ≤ cache.maxBlocks ↔ cache.pinnedBlocks < cache.maxBlocks := by
  have room := makeRoom_sourced cache.occupiedBlocks.length sourced
  have stored := store_stored room insertion
  have longer : (cache.insert insertion).2.len =
      (cache.makeRoom cache.occupiedBlocks.length).occupiedBlocks.length + 1 := by
    rw [len, insert, stored.occupied, length_append, length_singleton]
  rw [longer]
  constructor
  · intro within
    have pinned := makeRoom_pinned cache.occupiedBlocks.length sourced
    have below : (cache.makeRoom cache.occupiedBlocks.length).pinnedBlocks ≤
        (cache.makeRoom cache.occupiedBlocks.length).occupiedBlocks.length := countP_le_length
    omega
  · intro fewer
    have space := makeRoom_room cache.occupiedBlocks.length sourced (Nat.le_refl _) fewer
    omega

/-- Insertions keep the capacity and the blocks with a reference. -/
theorem foldl_insert_kept (insertions : List (Insertion Element)) (sourced : Sourced source cache) :
    let final := insertions.foldl (fun cache insertion => (cache.insert insertion).2) cache
    (∃ source', Sourced source' final) ∧ final.pinnedBlocks = cache.pinnedBlocks ∧
      final.maxBlocks = cache.maxBlocks := by
  induction insertions generalizing cache source with
  | nil => exact ⟨⟨source, sourced⟩, rfl, rfl⟩
  | cons insertion rest ih =>
      obtain ⟨final, pinned, capacity⟩ := ih (insert_sourced sourced insertion)
      refine ⟨final, pinned.trans (insert_pinned sourced insertion), ?_⟩
      exact capacity.trans (insert_capacity sourced insertion)

/-- The last insertion of a list decides whether the live blocks are within the capacity. -/
theorem foldl_insert_len_iff (insertions : List (Insertion Element)) (sourced : Sourced source cache)
    (within : cache.len ≤ cache.maxBlocks) :
    (insertions.foldl (fun cache insertion => (cache.insert insertion).2) cache).len ≤ cache.maxBlocks ↔
      (insertions ≠ [] → cache.pinnedBlocks < cache.maxBlocks) := by
  rcases eq_nil_or_concat' insertions with rfl | ⟨earlier, last, rfl⟩
  · simpa using within
  · obtain ⟨⟨source', before⟩, pinned, capacity⟩ := foldl_insert_kept earlier sourced
    have decided := insert_len_iff before last
    rw [pinned, capacity] at decided
    rw [foldl_append, foldl_cons, foldl_nil, decided]
    simp

end Pictor.PrefixCache
