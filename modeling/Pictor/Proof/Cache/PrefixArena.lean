import Pictor.Construction.Cache.PrefixCache

namespace Pictor.PrefixCache
open ArenaTrie List

variable {Element : Type}

/-- A block holds the arguments of an insertion. -/
structure Holds (blockSize : Nat) (insertion : Insertion Element) (block : CacheBlock Element) : Prop where
  keys : block.keys = insertion.keys
  values : block.values = insertion.values
  tokens : block.tokenIds = insertion.tokens blockSize

/-- Each slot is occupied or free. A node that carries a block is the only one with it, it lies at the
path of the insertion that filled the block, and the block is occupied. -/
structure Sourced (source : Nat → Option (Insertion Element)) (cache : PrefixCache Element) : Prop where
  rooted : Rooted cache.nodes
  slots : (cache.occupiedBlocks ++ cache.freeBlockPool).Perm (List.range cache.blocks.length)
  single : ∀ node node' idx, valueAt cache.nodes node = some idx → valueAt cache.nodes node' = some idx →
    node = node'
  live : ∀ node idx, valueAt cache.nodes node = some idx → idx ∈ cache.occupiedBlocks
  content : ∀ node idx, valueAt cache.nodes node = some idx → ∃ insertion, source idx = some insertion ∧
    walk cache.nodes 0 (insertion.path cache.blockSize) = some node ∧
    Holds cache.blockSize insertion (cache.block idx)

/-- Two states that differ at most in stamps, references and statistics. -/
structure Keeps (cache cache' : PrefixCache Element) : Prop where
  nodes : cache'.nodes = cache.nodes
  occupied : cache'.occupiedBlocks = cache.occupiedBlocks
  pool : cache'.freeBlockPool = cache.freeBlockPool
  size : cache'.blockSize = cache.blockSize
  capacity : cache'.maxBlocks = cache.maxBlocks
  length : cache'.blocks.length = cache.blocks.length
  contents : ∀ idx, (cache'.block idx).keys = (cache.block idx).keys ∧
    (cache'.block idx).values = (cache.block idx).values ∧
    (cache'.block idx).tokenIds = (cache.block idx).tokenIds

variable {source : Nat → Option (Insertion Element)} {cache cache' : PrefixCache Element}

theorem Keeps.refl (cache : PrefixCache Element) : Keeps cache cache :=
  ⟨rfl, rfl, rfl, rfl, rfl, rfl, fun _ => ⟨rfl, rfl, rfl⟩⟩

theorem Keeps.trans {later : PrefixCache Element} (first : Keeps cache cache')
    (second : Keeps cache' later) : Keeps cache later where
  nodes := second.nodes.trans first.nodes
  occupied := second.occupied.trans first.occupied
  pool := second.pool.trans first.pool
  size := second.size.trans first.size
  capacity := second.capacity.trans first.capacity
  length := second.length.trans first.length
  contents idx := by
    obtain ⟨keys, values, tokens⟩ := first.contents idx
    obtain ⟨keys', values', tokens'⟩ := second.contents idx
    exact ⟨keys'.trans keys, values'.trans values, tokens'.trans tokens⟩

theorem Sourced.keeps (sourced : Sourced source cache) (kept : Keeps cache cache') : Sourced source cache' := by
  constructor
  · rw [kept.nodes]
    exact sourced.rooted
  · rw [kept.occupied, kept.pool, kept.length]
    exact sourced.slots
  · rw [kept.nodes]
    exact sourced.single
  · rw [kept.nodes, kept.occupied]
    exact sourced.live
  · intro node idx carried
    rw [kept.nodes] at carried
    obtain ⟨insertion, recorded, walked, holds⟩ := sourced.content node idx carried
    obtain ⟨keys, values, tokens⟩ := kept.contents idx
    rw [kept.nodes, kept.size]
    refine ⟨insertion, recorded, walked, ?_⟩
    exact ⟨keys.trans holds.keys, values.trans holds.values, tokens.trans holds.tokens⟩

/-- A change of stamps and references keeps the contents. -/
theorem block_modify (cache : PrefixCache Element) (idx other : Nat)
    (change : CacheBlock Element → CacheBlock Element) (keys : ∀ block, (change block).keys = block.keys)
    (values : ∀ block, (change block).values = block.values)
    (tokens : ∀ block, (change block).tokenIds = block.tokenIds) :
    let changed : PrefixCache Element := { cache with blocks := cache.blocks.modify idx change }
    (changed.block other).keys = (cache.block other).keys ∧
      (changed.block other).values = (cache.block other).values ∧
      (changed.block other).tokenIds = (cache.block other).tokenIds := by
  intro changed
  simp only [changed, block, getD_eq_getElem?_getD, getElem?_modify]
  cases cache.blocks[other]? with
  | none => exact ⟨rfl, rfl, rfl⟩
  | some found =>
      by_cases same : idx = other
      · simp [same, keys, values, tokens]
      · simp [same]

theorem touch_keeps (cache : PrefixCache Element) (idx : Nat) : Keeps cache (cache.touch idx) where
  nodes := rfl
  occupied := rfl
  pool := rfl
  size := rfl
  capacity := rfl
  length := length_modify _ _ _
  contents other := block_modify cache idx other _ (fun _ => rfl) (fun _ => rfl) fun _ => rfl

theorem release_keeps (cache : PrefixCache Element) (idx : Nat) : Keeps cache (cache.release idx) where
  nodes := rfl
  occupied := rfl
  pool := rfl
  size := rfl
  capacity := rfl
  length := length_modify _ _ _
  contents other := block_modify cache idx other _ (fun _ => rfl) (fun _ => rfl) fun _ => rfl

theorem miss_keeps (cache : PrefixCache Element) : Keeps cache cache.miss :=
  ⟨rfl, rfl, rfl, rfl, rfl, rfl, fun _ => ⟨rfl, rfl, rfl⟩⟩

theorem new_sourced (maxBlocks blockSize : Nat) :
    Sourced (fun _ => none) (new maxBlocks blockSize : PrefixCache Element) := by
  have bare (node : Nat) : valueAt (new maxBlocks blockSize : PrefixCache Element).nodes node = none := by
    cases node <;> rfl
  constructor
  · exact rooted_single
  · exact List.Perm.refl _
  · intro node node' idx carried
    rw [bare] at carried
    cases carried
  · intro node idx carried
    rw [bare] at carried
    cases carried
  · intro node idx carried
    rw [bare] at carried
    cases carried

variable {Entry : Type} {pos idx : Nat}

theorem set_perm (entries : List Entry) (pos : Nat) (inside : pos < entries.length) (last : Entry) :
    (entries ++ [last]).Perm (entries[pos] :: entries.set pos last) := by
  induction entries generalizing pos with
  | nil => simp at inside
  | cons first rest ih =>
      cases pos with
      | zero => exact (perm_append_singleton last rest).cons first
      | succ pos =>
          have later := ih pos (Nat.lt_of_succ_lt_succ inside)
          exact (later.cons first).trans (List.Perm.swap _ _ _)

theorem swapRemove_perm (entries : List Entry) {entry : Entry} (present : entries[pos]? = some entry) :
    entries.Perm (entry :: swapRemove entries pos) := by
  obtain ⟨inside, rfl⟩ := List.getElem?_eq_some_iff.mp present
  rcases eq_nil_or_concat' entries with rfl | ⟨front, last, rfl⟩
  · simp at inside
  · rw [swapRemove, getLast?_concat]
    by_cases before : pos < front.length
    · rw [getElem_append_left before]
      dsimp only
      rw [set_append_left _ _ before, dropLast_concat]
      exact set_perm front pos before last
    · have at_end : pos = front.length := by
        rw [length_append, length_singleton] at inside
        omega
      subst at_end
      simp

/-- The victim of an eviction is an occupied block without a reference. -/
theorem victimPos_spec (found : cache.victimPos = some pos) :
    ∃ victim, cache.occupiedBlocks[pos]? = some victim ∧ (cache.block victim).refCount = 0 := by
  obtain ⟨entry, least, rfl⟩ := Option.map_eq_some_iff.mp found
  obtain ⟨listed, free⟩ := mem_filter.mp (argmin_mem least)
  refine ⟨entry.1, ?_, of_decide_eq_true free⟩
  exact mem_zipIdx_iff_getElem?.mp listed

/-- The removal of a block from its only node. -/
theorem valueAt_unlink (nodes : List TrieNode) (idx : Nat)
    (single : ∀ node node', valueAt nodes node = some idx → valueAt nodes node' = some idx → node = node')
    (node : Nat) : valueAt (unlink nodes idx) node =
      if valueAt nodes node = some idx then none else valueAt nodes node := by
  unfold unlink
  split
  · rename_i missing
    rw [if_neg]
    intro carried
    obtain ⟨entry, present, value⟩ := Option.bind_eq_some_iff.mp carried
    have absent := findIdx?_eq_none_iff.mp missing entry (mem_of_getElem? present)
    simp [value] at absent
  · rename_i first found
    obtain ⟨inside, carries, _⟩ := findIdx?_eq_some_iff_getElem.mp found
    have carried : valueAt nodes first = some idx := by
      rw [valueAt, getElem?_eq_getElem inside]
      exact of_decide_eq_true carries
    rw [valueAt_setValue _ _ inside]
    by_cases same : node = first
    · rw [if_pos same, same, if_pos carried]
    · rw [if_neg same, if_neg fun other => same (single _ _ other carried)]

theorem walk_unlink (nodes : List TrieNode) (idx start : Nat) (keys : List UInt32) :
    walk (unlink nodes idx) start keys = walk nodes start keys := by
  unfold unlink
  split
  · rfl
  · exact walk_setValue _ _ _ _

theorem rooted_unlink {nodes : List TrieNode} (rooted : Rooted nodes) (idx : Nat) : Rooted (unlink nodes idx) := by
  unfold unlink
  split
  · exact rooted
  · exact rooted.setValue _ _

/-- The removal of one occupied block: its slot is free, and no node carries it. -/
structure Evicted (victim : Nat) (cache cache' : PrefixCache Element) : Prop where
  occupied : cache.occupiedBlocks.Perm (victim :: cache'.occupiedBlocks)
  pool : cache'.freeBlockPool = cache.freeBlockPool ++ [victim]
  values : ∀ node, valueAt cache'.nodes node =
    if valueAt cache.nodes node = some victim then none else valueAt cache.nodes node
  walks : ∀ start keys, walk cache'.nodes start keys = walk cache.nodes start keys
  rooted : Rooted cache'.nodes
  blocks : cache'.blocks = cache.blocks
  size : cache'.blockSize = cache.blockSize
  capacity : cache'.maxBlocks = cache.maxBlocks

/-- The block that an eviction removes. -/
def victim (cache : PrefixCache Element) : Option Nat :=
  cache.victimPos.bind fun pos => cache.occupiedBlocks[pos]?

/-- An eviction fails, or it removes the victim. -/
theorem evictLru_cases (sourced : Sourced source cache) : (cache.victim = none ∧ cache.evictLru = (false, cache)) ∨
      ∃ idx, cache.victim = some idx ∧ cache.evictLru.1 = true ∧ Evicted idx cache cache.evictLru.2 := by
  cases position : cache.victimPos with
  | none => exact Or.inl ⟨by simp [victim, position], by simp [evictLru, position]⟩
  | some pos =>
      obtain ⟨idx, present, _⟩ := victimPos_spec position
      have chosen : cache.occupiedBlocks.getD pos 0 = idx := by
        rw [getD_eq_getElem?_getD, present, Option.getD_some]
      refine Or.inr ⟨idx, by simp [victim, position, present], by simp [evictLru, position], ?_⟩
      simp only [evictLru, position, chosen]
      constructor
      · exact swapRemove_perm _ present
      · rfl
      · exact valueAt_unlink cache.nodes idx fun node node' => sourced.single node node' idx
      · exact walk_unlink cache.nodes idx
      · exact rooted_unlink sourced.rooted idx
      · rfl
      · rfl
      · rfl

theorem Evicted.sourced (evicted : Evicted idx cache cache') (sourced : Sourced source cache) :
    Sourced source cache' := by
  have carried {node other : Nat} (here : valueAt cache'.nodes node = some other) :
      valueAt cache.nodes node = some other ∧ other ≠ idx := by
    rw [evicted.values] at here
    split at here
    · cases here
    · rename_i kept
      refine ⟨here, ?_⟩
      rintro rfl
      exact kept here
  constructor
  · exact evicted.rooted
  · have moved : (cache'.occupiedBlocks ++ cache'.freeBlockPool).Perm
        (cache.occupiedBlocks ++ cache.freeBlockPool) := by
      rw [evicted.pool, ← append_assoc]
      refine (perm_append_singleton _ _).trans ?_
      exact (evicted.occupied.append_right cache.freeBlockPool).symm
    rw [evicted.blocks]
    exact moved.trans sourced.slots
  · intro node node' other here here'
    exact sourced.single node node' other (carried here).1 (carried here').1
  · intro node other here
    obtain ⟨before, different⟩ := carried here
    have occupied := evicted.occupied.mem_iff.mp (sourced.live node other before)
    rcases mem_cons.mp occupied with same | later
    · exact absurd same different
    · exact later
  · intro node other here
    obtain ⟨insertion, recorded, walked, holds⟩ := sourced.content node other (carried here).1
    refine ⟨insertion, recorded, ?_, ?_⟩
    · rw [evicted.walks, evicted.size]
      exact walked
    · rw [evicted.size, block, evicted.blocks]
      exact holds

theorem makeRoom_sourced (bound : Nat) (sourced : Sourced source cache) : Sourced source (cache.makeRoom bound) := by
  induction bound generalizing cache with
  | zero => exact sourced
  | succ bound ih =>
      rw [makeRoom]
      split
      · exact sourced
      · rcases evictLru_cases sourced with ⟨_, failed⟩ | ⟨idx, _, succeeded, evicted⟩
        · rw [failed]
          exact sourced
        · rw [if_pos succeeded]
          exact ih (evicted.sourced sourced)

@[simp] theorem makeRoom_size (bound : Nat) (cache : PrefixCache Element) :
    (cache.makeRoom bound).blockSize = cache.blockSize := by
  induction bound generalizing cache with
  | zero => rfl
  | succ bound ih =>
      rw [makeRoom]
      split
      · rfl
      · split
        · rw [ih, evictLru]
          split <;> rfl
        · rfl

/-- The storage of a block in a slot that was not occupied. -/
structure Stored (insertion : Insertion Element) (leaf idx : Nat) (cache cache' : PrefixCache Element) :
    Prop where
  fresh : idx ∉ cache.occupiedBlocks
  occupied : cache'.occupiedBlocks = cache.occupiedBlocks ++ [idx]
  slots : (cache'.occupiedBlocks ++ cache'.freeBlockPool).Perm (List.range cache'.blocks.length)
  rooted : Rooted cache'.nodes
  reached : walk cache'.nodes 0 (insertion.path cache.blockSize) = some leaf
  walks : ∀ keys node, walk cache.nodes 0 keys = some node → walk cache'.nodes 0 keys = some node
  values : ∀ node, valueAt cache'.nodes node = if node = leaf then some idx else valueAt cache.nodes node
  holds : Holds cache.blockSize insertion (cache'.block idx)
  others : ∀ other ∈ cache.occupiedBlocks, cache'.block other = cache.block other
  size : cache'.blockSize = cache.blockSize
  capacity : cache'.maxBlocks = cache.maxBlocks

theorem store_stored (sourced : Sourced source cache) (insertion : Insertion Element) :
    Stored insertion (descend cache.nodes 0 (insertion.path cache.blockSize)).1
      (cache.store insertion).1 cache (cache.store insertion).2 := by
  have positive : 0 < cache.nodes.length := by
    obtain ⟨path, labelled⟩ := sourced.rooted
    exact labelled.nonempty
  obtain ⟨walked, kept, values, rooted, inside⟩ := descend_spec sourced.rooted positive
    (insertion.path cache.blockSize)
  have distinct : (cache.occupiedBlocks ++ cache.freeBlockPool).Nodup :=
    sourced.slots.nodup_iff.mpr nodup_range
  have below (idx : Nat) (member : idx ∈ cache.occupiedBlocks) : idx < cache.blocks.length :=
    mem_range.mp (sourced.slots.mem_iff.mp (mem_append_left _ member))
  simp only [store, place]
  split
  · rename_i reuse last
    have pool := dropLast_append_getLast? reuse last
    have free : reuse ∈ cache.freeBlockPool := mem_of_getLast? last
    have slot : reuse < cache.blocks.length :=
      mem_range.mp (sourced.slots.mem_iff.mp (mem_append_right _ free))
    have fresh : reuse ∉ cache.occupiedBlocks := fun occupied =>
      disjoint_of_nodup_append distinct occupied free
    constructor
    · exact fresh
    · rfl
    · dsimp only
      rw [length_set, append_assoc]
      refine List.Perm.trans ?_ sourced.slots
      refine List.Perm.append_left _ (perm_append_comm.trans ?_)
      rw [pool]
    · exact rooted.setValue _ _
    · rw [walk_setValue]
      exact walked
    · intro keys node old
      rw [walk_setValue]
      exact kept 0 keys node old
    · intro node
      rw [valueAt_setValue _ _ inside, values]
    · simp only [block, getD_eq_getElem?_getD, getElem?_set_self slot, Option.getD_some]
      exact ⟨rfl, rfl, rfl⟩
    · intro other occupied
      have different : reuse ≠ other := by
        rintro rfl
        exact fresh occupied
      simp only [block, getD_eq_getElem?_getD, getElem?_set_ne different]
    · rfl
    · rfl
  · rename_i none
    have pool : cache.freeBlockPool = [] := getLast?_eq_none_iff.mp none
    have slots := sourced.slots
    rw [pool, append_nil] at slots
    constructor
    · intro occupied
      exact absurd (below _ occupied) (Nat.lt_irrefl _)
    · rfl
    · dsimp only
      rw [pool, append_nil, length_append, length_singleton, List.range_succ]
      exact slots.append_right _
    · exact rooted.setValue _ _
    · rw [walk_setValue]
      exact walked
    · intro keys node old
      rw [walk_setValue]
      exact kept 0 keys node old
    · intro node
      rw [valueAt_setValue _ _ inside, values]
    · simp only [block, getD_eq_getElem?_getD, getElem?_concat_length, Option.getD_some]
      exact ⟨rfl, rfl, rfl⟩
    · intro other occupied
      simp only [block, getD_eq_getElem?_getD, getElem?_append_left (below other occupied)]
    · rfl
    · rfl

/-- The record of the new block joins the records of the others. -/
theorem Stored.sourced {insertion : Insertion Element} {leaf : Nat} (stored : Stored insertion leaf idx cache cache')
    (sourced : Sourced source cache) : Sourced (Function.update source idx (some insertion)) cache' := by
  have carried {node other : Nat} (here : valueAt cache'.nodes node = some other) :
      (node = leaf ∧ other = idx) ∨ (valueAt cache.nodes node = some other ∧ other ≠ idx) := by
    rw [stored.values] at here
    split at here
    · rename_i same
      cases here
      exact Or.inl ⟨same, rfl⟩
    · refine Or.inr ⟨here, ?_⟩
      rintro rfl
      exact stored.fresh (sourced.live node other here)
  constructor
  · exact stored.rooted
  · exact stored.slots
  · intro node node' other here here'
    rcases carried here with ⟨rfl, rfl⟩ | ⟨old, different⟩
    · rcases carried here' with ⟨rfl, _⟩ | ⟨_, different⟩
      · rfl
      · exact absurd rfl different
    · rcases carried here' with ⟨rfl, rfl⟩ | ⟨old', _⟩
      · exact absurd rfl different
      · exact sourced.single node node' other old old'
  · intro node other here
    rw [stored.occupied]
    rcases carried here with ⟨rfl, rfl⟩ | ⟨old, _⟩
    · exact mem_append_right _ mem_cons_self
    · exact mem_append_left _ (sourced.live node other old)
  · intro node other here
    rw [stored.size]
    rcases carried here with ⟨rfl, rfl⟩ | ⟨old, different⟩
    · exact ⟨insertion, Function.update_self _ _ _, stored.reached, stored.holds⟩
    · obtain ⟨earlier, recorded, walked, holds⟩ := sourced.content node other old
      refine ⟨earlier, ?_, stored.walks _ _ walked, ?_⟩
      · rw [Function.update_of_ne different, recorded]
      · rw [stored.others other (sourced.live node other old)]
        exact holds

/-- An insertion records its arguments for the slot it returns. -/
theorem insert_sourced (sourced : Sourced source cache) (insertion : Insertion Element) :
    Sourced (Function.update source (cache.insert insertion).1 (some insertion)) (cache.insert insertion).2 := by
  have room := makeRoom_sourced cache.occupiedBlocks.length sourced
  exact (store_stored room insertion).sourced room

theorem clear_sourced (cache : PrefixCache Element) : Sourced (fun _ => none) cache.clear :=
  (new_sourced cache.maxBlocks cache.blockSize).keeps
    ⟨rfl, rfl, rfl, rfl, rfl, rfl, fun _ => ⟨rfl, rfl, rfl⟩⟩

end Pictor.PrefixCache
