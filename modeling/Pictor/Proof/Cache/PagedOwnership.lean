import Pictor.Construction.Cache.PagedKvCache

namespace Pictor
open List

/-- The entries of a map are the entry of a key and the entries without it. -/
theorem entries_perm_erase {Table : Type} {tables : AList fun _ : Nat => Table} {key : Nat} {table : Table}
    (found : tables.lookup key = some table) : tables.entries.Perm (⟨key, table⟩ :: (tables.erase key).entries) := by
  have member : key ∈ tables.entries.keys := AList.lookup_isSome.mp (by rw [found]; rfl)
  obtain ⟨other, before, after, absent, split, erased⟩ := exists_of_kerase member
  have same : other = table := by
    have entry : ⟨key, table⟩ ∈ tables.entries := AList.mem_lookup_iff.mp found
    have entry' : ⟨key, other⟩ ∈ tables.entries := by simp [split]
    exact tables.nodupKeys.eq_of_mk_mem entry' entry
  change tables.entries.Perm (_ :: tables.entries.kerase key)
  rw [erased, split, same]
  exact perm_middle

namespace PagedKvCache

variable {Element : Type}

/-- The pages of a block table. -/
def tablePages (table : BlockTable) : List Nat := table.blocks.flatten

/-- The pages of all live sequences. -/
def ownedPages (sequences : AList fun _ : Nat => BlockTable) : List Nat :=
  sequences.entries.flatMap fun entry => tablePages entry.2

/-- Each page is free or in one block list, exactly once. -/
structure Owned (capacity blockSize : Nat) (cache : PagedKvCache Element) : Prop where
  partition : (cache.pool.freeList ++ ownedPages cache.sequences).Perm (List.range capacity)
  size : cache.pool.blockSize = blockSize
  pages : cache.pool.pages.length = capacity
  lengths : ∀ page ∈ cache.pool.pages, page.keys.length = blockSize * cache.pool.slotLen ∧
    page.values.length = blockSize * cache.pool.slotLen
  tables : ∀ seqId table, cache.sequences.lookup seqId = some table →
    table.blocks.length = cache.pool.numLayers ∧ table.blockSize = blockSize
  fresh : ∀ seqId ∈ cache.sequences, seqId < cache.nextSeqId

theorem ownedPages_erase {sequences : AList fun _ : Nat => BlockTable} (found : sequences.lookup seqId = some table) :
    (ownedPages sequences).Perm (tablePages table ++ ownedPages (sequences.erase seqId)) :=
  (entries_perm_erase found).flatMap_right _

theorem ownedPages_insert (sequences : AList fun _ : Nat => BlockTable) (seqId : Nat)
    (table : BlockTable) : ownedPages (sequences.insert seqId table) =
      tablePages table ++ ownedPages (sequences.erase seqId) := by
  rw [ownedPages, AList.entries_insert, flatMap_cons]
  rfl

theorem flatten_modify (blocks : List (List Nat)) (layer phys : Nat) (inside : layer < blocks.length) :
    (blocks.modify layer (· ++ [phys])).flatten.Perm (phys :: blocks.flatten) := by
  induction blocks generalizing layer with
  | nil => simp at inside
  | cons first rest ih =>
      cases layer with
      | zero =>
          rw [modify_zero_cons, flatten_cons, flatten_cons, append_assoc]
          exact perm_middle
      | succ layer =>
          rw [modify_succ_cons, flatten_cons, flatten_cons]
          have later := ih layer (Nat.lt_of_succ_lt_succ inside)
          exact (later.append_left first).trans perm_middle

@[simp] theorem foldl_free (pool : BlockPool Element) (pages : List Nat) :
    pages.foldl BlockPool.free pool = { pool with freeList := pool.freeList ++ pages } := by
  induction pages generalizing pool with
  | nil => simp
  | cons page rest ih => simp [ih, BlockPool.free]

variable {capacity blockSize : Nat} {cache : PagedKvCache Element} {seqId layer phys logical : Nat} {table : BlockTable}

theorem newWithBlockSize_owned [Zero Element] (capacity blockSize numLayers numKvHeads headDim : Nat) :
    Owned capacity blockSize
      (newWithBlockSize capacity blockSize numLayers numKvHeads headDim : PagedKvCache Element) := by
  constructor
  · simp [newWithBlockSize, BlockPool.new, ownedPages]
  · rfl
  · simp [newWithBlockSize, BlockPool.new]
  · intro page member
    have same := eq_of_mem_replicate member
    rw [same]
    simp [KvPage.new, newWithBlockSize, BlockPool.new, BlockPool.slotLen, Nat.mul_assoc]
  · intro seqId table found
    simp [newWithBlockSize] at found
  · intro seqId member
    simp [newWithBlockSize] at member

variable (owned : Owned capacity blockSize cache)
include owned

theorem createSequence_owned : Owned capacity blockSize cache.createSequence.2 := by
  have absent : cache.nextSeqId ∉ cache.sequences := fun member =>
    absurd (owned.fresh _ member) (Nat.lt_irrefl _)
  constructor
  · have same : ownedPages (cache.createSequence.2).sequences = ownedPages cache.sequences := by
      have empty : tablePages (.new cache.pool.numLayers cache.pool.blockSize) = [] := by
        simp [tablePages, BlockTable.new]
      rw [createSequence, ownedPages, AList.entries_insert_of_notMem absent, flatMap_cons, empty]
      rfl
    rw [same]
    exact owned.partition
  · exact owned.size
  · exact owned.pages
  · exact owned.lengths
  · intro seqId table found
    by_cases new : seqId = cache.nextSeqId
    · rw [new, createSequence, AList.lookup_insert] at found
      cases found
      exact ⟨length_replicate, owned.size⟩
    · rw [createSequence, AList.lookup_insert_ne new] at found
      exact owned.tables seqId table found
  · intro seqId member
    rcases (AList.mem_insert _).mp member with rfl | old
    · exact Nat.lt_succ_self _
    · exact Nat.lt_succ_of_lt (owned.fresh seqId old)

theorem dropSequence_owned (seqId : Nat) : Owned capacity blockSize (cache.dropSequence seqId).2 := by
  unfold dropSequence
  split
  · exact owned
  · rename_i table found
    simp only [foldl_free]
    constructor
    · have moved := (ownedPages_erase found).append_left cache.pool.freeList
      rw [← append_assoc] at moved
      exact moved.symm.trans owned.partition
    · exact owned.size
    · exact owned.pages
    · exact owned.lengths
    · intro other table' present
      apply owned.tables other table'
      by_cases same : other = seqId
      · rw [same, AList.lookup_erase] at present
        cases present
      · rwa [AList.lookup_erase_ne same] at present
    · intro other member
      exact owned.fresh other (AList.mem_erase.mp member).2

/-- One page moves from the free list to the block list of a layer. -/
theorem appendBlock_owned {pool : BlockPool Element} (allocated : cache.pool.allocate = (some phys, pool))
    (found : cache.sequences.lookup seqId = some table) (inside : layer < cache.pool.numLayers) :
    Owned capacity blockSize { cache with
      pool, sequences := cache.sequences.insert seqId (table.appendBlock layer phys) } := by
  obtain ⟨last, rfl⟩ := Prod.mk.inj allocated
  obtain ⟨layers, size⟩ := owned.tables seqId table found
  constructor
  · have free := dropLast_append_getLast? phys last
    have grown : (tablePages (table.appendBlock layer phys)).Perm (phys :: tablePages table) :=
      flatten_modify table.blocks layer phys (by omega)
    have moved : (phys :: (tablePages table ++ ownedPages (cache.sequences.erase seqId))).Perm
        (phys :: ownedPages cache.sequences) := (ownedPages_erase found).symm.cons phys
    rw [ownedPages_insert]
    calc cache.pool.freeList.dropLast ++
          (tablePages (table.appendBlock layer phys) ++ ownedPages (cache.sequences.erase seqId))
      _ |>.Perm <| cache.pool.freeList.dropLast ++
          (phys :: (tablePages table ++ ownedPages (cache.sequences.erase seqId))) :=
        (grown.append_right _).append_left _
      _ |>.Perm <| cache.pool.freeList.dropLast ++ (phys :: ownedPages cache.sequences) :=
        moved.append_left _
      _ |>.Perm <| List.range capacity := by
        rw [← singleton_append, ← append_assoc, free]
        exact owned.partition
  · exact owned.size
  · exact owned.pages
  · exact owned.lengths
  · intro other table' present
    by_cases same : other = seqId
    · rw [same, AList.lookup_insert] at present
      cases present
      exact ⟨by simpa [BlockTable.appendBlock] using layers, size⟩
    · rw [AList.lookup_insert_ne same] at present
      exact owned.tables other table' present
  · intro other member
    rcases (AList.mem_insert _).mp member with rfl | old
    · exact owned.fresh _ (AList.lookup_isSome.mp (by rw [found]; rfl))
    · exact owned.fresh other old

omit owned

theorem allocateBlocks_owned (seqId : Nat) (layers : List Nat) (cache : PagedKvCache Element)
    (owned : Owned capacity blockSize cache) (live : seqId ∈ cache.sequences)
    (inside : ∀ layer ∈ layers, layer < cache.pool.numLayers) :
    Owned capacity blockSize (cache.allocateBlocks seqId layers).2 := by
  induction layers generalizing cache with
  | nil => exact owned
  | cons layer rest ih =>
      rw [allocateBlocks]
      split
      · exact owned
      · rename_i phys pool allocated
        split
        · rename_i missing
          exact absurd live (AList.lookup_eq_none.mp missing)
        · rename_i table found
          apply ih
          · exact appendBlock_owned owned allocated found (inside layer mem_cons_self)
          · exact (AList.mem_insert _).mpr (Or.inl rfl)
          · intro other member
            have same := (Prod.mk.inj allocated).2
            rw [← same]
            exact inside other (mem_cons_of_mem _ member)

theorem deficits_inside (numLayers blocksNeeded : Nat) (table : BlockTable) :
    ∀ layer ∈ deficits numLayers blocksNeeded table, layer < numLayers := by
  intro layer member
  obtain ⟨other, inside, repeated⟩ := mem_flatMap.mp member
  rw [eq_of_mem_replicate repeated]
  exact mem_range.mp inside

theorem ensureCapacity_owned (owned : Owned capacity blockSize cache) (seqId numTokens : Nat) :
    Owned capacity blockSize (cache.ensureCapacity seqId numTokens).2 := by
  unfold ensureCapacity
  split
  · exact owned
  · rename_i table found
    apply allocateBlocks_owned _ _ _ owned
    · exact AList.lookup_isSome.mp (by rw [found]; rfl)
    · exact deficits_inside _ _ table

/-- The slot of a position lies inside its page. -/
theorem slot_inside (positive : 0 < blockSize) (tokenPos slotLen : Nat) :
    tokenPos % blockSize * slotLen + slotLen ≤ blockSize * slotLen := by
  have below := Nat.mod_lt tokenPos positive
  calc tokenPos % blockSize * slotLen + slotLen
    _ = (tokenPos % blockSize + 1) * slotLen := by rw [Nat.succ_mul]
    _ ≤ blockSize * slotLen := Nat.mul_le_mul_right slotLen below

theorem storeSlot_owned (owned : Owned capacity blockSize cache) (positive : 0 < blockSize)
    (phys tokenPos : Nat) {key value : List Element} (keyLength : key.length = cache.pool.slotLen)
    (valueLength : value.length = cache.pool.slotLen) :
    Owned capacity blockSize (cache.storeSlot phys tokenPos key value) := by
  have inside := slot_inside positive tokenPos cache.pool.slotLen
  rw [← owned.size] at inside
  constructor
  · exact owned.partition
  · exact owned.size
  · simp [storeSlot, owned.pages]
  · intro page member
    obtain ⟨idx, here⟩ := mem_iff_getElem?.mp member
    simp only [storeSlot, getElem?_modify, Option.map_eq_map, Option.map_eq_some_iff] at here
    obtain ⟨old, present, rfl⟩ := here
    obtain ⟨keys, values⟩ := owned.lengths old (mem_of_getElem? present)
    change _ = blockSize * cache.pool.slotLen ∧ _ = blockSize * cache.pool.slotLen
    split
    · rw [Slice.length_copyFromSlice, Slice.length_copyFromSlice]
      · exact ⟨keys, values⟩
      · rw [values, valueLength, ← owned.size]
        exact inside
      · rw [keys, keyLength, ← owned.size]
        exact inside
    · exact ⟨keys, values⟩
  · exact owned.tables
  · exact owned.fresh

/-- Growth changes only the free list of the pool. -/
theorem allocateBlocks_pool (seqId : Nat) (layers : List Nat) (cache : PagedKvCache Element) :
    ∃ freeList, (cache.allocateBlocks seqId layers).2.pool = { cache.pool with freeList } := by
  induction layers generalizing cache with
  | nil => exact ⟨cache.pool.freeList, rfl⟩
  | cons layer rest ih =>
      rw [allocateBlocks]
      split
      · exact ⟨cache.pool.freeList, rfl⟩
      · rename_i phys pool allocated
        have same := (Prod.mk.inj allocated).2
        split
        · exact ⟨_, same.symm⟩
        · rename_i table found
          obtain ⟨freeList, later⟩ := ih { cache with
            pool, sequences := cache.sequences.insert seqId (table.appendBlock layer phys) }
          rw [later, ← same]
          exact ⟨freeList, rfl⟩

theorem ensureCapacity_pool (cache : PagedKvCache Element) (seqId numTokens : Nat) :
    ∃ freeList, (cache.ensureCapacity seqId numTokens).2.pool = { cache.pool with freeList } := by
  unfold ensureCapacity
  split
  · exact ⟨cache.pool.freeList, rfl⟩
  · apply allocateBlocks_pool

/-- A write fails and keeps the pages, or it grows the block lists and stores one slot. -/
theorem writeKv_cases (cache : PagedKvCache Element) (seqId layer tokenPos : Nat) (key value : List Element) :
    (∃ error, cache.writeKv seqId layer tokenPos key value = (.error error, cache)) ∨
    (∃ error, cache.writeKv seqId layer tokenPos key value =
      (.error error, (cache.ensureCapacity seqId ((tokenPos + 1) % 2 ^ 64)).2)) ∨
    (∃ phys, key.length = cache.pool.slotLen ∧ value.length = cache.pool.slotLen ∧
      (cache.ensureCapacity seqId ((tokenPos + 1) % 2 ^ 64)).2.getBlock seqId layer tokenPos = .ok phys ∧
      cache.writeKv seqId layer tokenPos key value = (.ok (),
        (cache.ensureCapacity seqId ((tokenPos + 1) % 2 ^ 64)).2.storeSlot phys tokenPos key value)) := by
  unfold writeKv
  dsimp only
  split
  · exact Or.inl ⟨_, rfl⟩
  · rename_i keyLength
    split
    · exact Or.inl ⟨_, rfl⟩
    · rename_i valueLength
      generalize cache.ensureCapacity seqId ((tokenPos + 1) % 2 ^ 64) = grown
      obtain ⟨result, grown⟩ := grown
      cases result with
      | error error => exact Or.inr (Or.inl ⟨error, rfl⟩)
      | ok _ =>
          dsimp only
          cases block : grown.getBlock seqId layer tokenPos with
          | error error => exact Or.inr (Or.inl ⟨error, rfl⟩)
          | ok phys => exact Or.inr (Or.inr
              ⟨phys, Decidable.not_not.mp keyLength, Decidable.not_not.mp valueLength, rfl, rfl⟩)

variable (owned : Owned capacity blockSize cache)
include owned

theorem writeKv_owned (positive : 0 < blockSize) (seqId layer tokenPos : Nat) (key value : List Element) :
    Owned capacity blockSize (cache.writeKv seqId layer tokenPos key value).2 := by
  have grown := ensureCapacity_owned owned seqId ((tokenPos + 1) % 2 ^ 64)
  rcases writeKv_cases cache seqId layer tokenPos key value with
    ⟨error, result⟩ | ⟨error, result⟩ | ⟨phys, keyLength, valueLength, _, result⟩
  · rw [result]
    exact owned
  · rw [result]
    exact grown
  · rw [result]
    obtain ⟨freeList, pool⟩ := ensureCapacity_pool cache seqId ((tokenPos + 1) % 2 ^ 64)
    apply storeSlot_owned grown positive
    · rw [pool]
      exact keyLength
    · rw [pool]
      exact valueLength

theorem step_owned (positive : 0 < blockSize) (operation : Operation Element) :
    Owned capacity blockSize (cache.step operation) := by
  cases operation with
  | create => exact createSequence_owned owned
  | drop seqId => exact dropSequence_owned owned seqId
  | ensure seqId numTokens => exact ensureCapacity_owned owned seqId numTokens
  | write seqId layer tokenPos key value =>
      exact writeKv_owned owned positive seqId layer tokenPos key value
  | read seqId layer tokenPos => exact owned

/-- Ownership holds along every run. -/
theorem run_owned (positive : 0 < blockSize) (operations : List (Operation Element)) :
    Owned capacity blockSize (cache.run operations) := by
  induction operations generalizing cache with
  | nil => exact owned
  | cons operation rest ih => exact ih (step_owned owned positive operation)

omit owned

theorem mem_tablePages (found : table.getBlock layer logical = some phys) : phys ∈ tablePages table := by
  obtain ⟨blocks, present, here⟩ := Option.bind_eq_some_iff.mp found
  exact mem_flatten.mpr ⟨blocks, mem_of_getElem? present, mem_of_getElem? here⟩

/-- A table without a repeated page has one place for each page. -/
theorem getBlock_injective (distinct : (tablePages table).Nodup) {layer' logical' : Nat}
    (found : table.getBlock layer logical = some phys) (found' : table.getBlock layer' logical' = some phys) :
    layer = layer' ∧ logical = logical' := by
  obtain ⟨blocks, present, here⟩ := Option.bind_eq_some_iff.mp found
  obtain ⟨blocks', present', here'⟩ := Option.bind_eq_some_iff.mp found'
  obtain ⟨each, apart⟩ := nodup_flatten.mp distinct
  have sameLayer : layer = layer' := by
    by_contra different
    obtain ⟨inside, rfl⟩ := List.getElem?_eq_some_iff.mp present
    obtain ⟨inside', rfl⟩ := List.getElem?_eq_some_iff.mp present'
    have disjoint : List.Disjoint table.blocks[layer] table.blocks[layer'] := by
      rcases Nat.lt_or_gt_of_ne different with before | after
      · exact pairwise_iff_getElem.mp apart layer layer' inside inside' before
      · exact fun _ left right => pairwise_iff_getElem.mp apart layer' layer inside' inside after right left
    exact disjoint (mem_of_getElem? here) (mem_of_getElem? here')
  subst sameLayer
  rw [present] at present'
  cases present'
  refine ⟨rfl, ?_⟩
  have inside := (List.getElem?_eq_some_iff.mp here).1
  exact (getElem?_inj inside (each blocks (mem_of_getElem? present))).mp (here.trans here'.symm)

/-- A page belongs to one sequence, one layer and one block. -/
theorem Owned.injective (owned : Owned capacity blockSize cache) {seqId' : Nat} {table' : BlockTable}
    {layer' logical' : Nat} (found : cache.sequences.lookup seqId = some table)
    (found' : cache.sequences.lookup seqId' = some table') (block : table.getBlock layer logical = some phys)
    (block' : table'.getBlock layer' logical' = some phys) :
    seqId = seqId' ∧ layer = layer' ∧ logical = logical' := by
  have distinct : (ownedPages cache.sequences).Nodup :=
    (owned.partition.nodup_iff.mpr nodup_range).of_append_right
  have split := (ownedPages_erase found).nodup_iff.mp distinct
  by_cases same : seqId = seqId'
  · subst same
    rw [found] at found'
    cases found'
    exact ⟨rfl, getBlock_injective split.of_append_left block block'⟩
  · have elsewhere : phys ∈ ownedPages (cache.sequences.erase seqId) := by
      rw [← AList.lookup_erase_ne (Ne.symm same)] at found'
      exact mem_flatMap.mpr ⟨_, AList.mem_lookup_iff.mp found', mem_tablePages block'⟩
    exact absurd elsewhere (disjoint_of_nodup_append split (mem_tablePages block))

/-- The page of a block exists. -/
theorem Owned.inside (owned : Owned capacity blockSize cache) (found : cache.sequences.lookup seqId = some table)
    (block : table.getBlock layer logical = some phys) : phys < cache.pool.pages.length := by
  have member : phys ∈ ownedPages cache.sequences :=
    (ownedPages_erase found).mem_iff.mpr (mem_append_left _ (mem_tablePages block))
  have listed := owned.partition.mem_iff.mp (mem_append_right cache.pool.freeList member)
  rw [owned.pages]
  exact mem_range.mp listed

end PagedKvCache

end Pictor
