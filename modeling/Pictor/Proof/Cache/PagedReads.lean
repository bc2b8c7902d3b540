import Pictor.Proof.Cache.PagedOwnership

namespace Pictor.PagedKvCache
open Slice List

variable {Element : Type} {capacity blockSize : Nat} {cache cache' : PagedKvCache Element} {seqId layer : Nat}
  {pair : List Element × List Element}

theorem getBlock_eq_ok {tokenPos phys : Nat} :
    cache.getBlock seqId layer tokenPos = .ok phys ↔ ∃ table, cache.sequences.lookup seqId = some table ∧
      table.getBlock layer (tokenPos / cache.pool.blockSize) = some phys := by
  unfold getBlock
  cases cache.sequences.lookup seqId with
  | none => simp
  | some table =>
      cases block : table.getBlock layer (tokenPos / cache.pool.blockSize) <;> simp [block]

/-- The blocks of a sequence stay at their places, and the pages keep their contents. -/
structure Extends (seqId : Nat) (cache cache' : PagedKvCache Element) : Prop where
  pool : ∃ freeList, cache'.pool = { cache.pool with freeList }
  blocks : ∀ table, cache.sequences.lookup seqId = some table →
    ∃ table', cache'.sequences.lookup seqId = some table' ∧
      ∀ layer logical phys, table.getBlock layer logical = some phys →
        table'.getBlock layer logical = some phys

theorem Extends.trans {later : PagedKvCache Element} (first : Extends seqId cache cache')
    (second : Extends seqId cache' later) : Extends seqId cache later := by
  obtain ⟨free, pool⟩ := first.pool
  obtain ⟨free', pool'⟩ := second.pool
  constructor
  · rw [pool', pool]
    exact ⟨free', rfl⟩
  · intro table found
    obtain ⟨table', found', kept⟩ := first.blocks table found
    obtain ⟨table'', found'', kept'⟩ := second.blocks table' found'
    exact ⟨table'', found'', fun layer logical phys here => kept' _ _ _ (kept _ _ _ here)⟩

/-- An extension keeps every successful read. -/
theorem Extends.readKv {tokenPos : Nat} (extended : Extends seqId cache cache')
    (read : cache.readKv seqId layer tokenPos = .ok pair) : cache'.readKv seqId layer tokenPos = .ok pair := by
  obtain ⟨freeList, pool⟩ := extended.pool
  unfold PagedKvCache.readKv at read ⊢
  cases block : cache.getBlock seqId layer tokenPos with
  | error error =>
      rw [block] at read
      cases read
  | ok phys =>
      obtain ⟨table, found, here⟩ := getBlock_eq_ok.mp block
      obtain ⟨table', found', kept⟩ := extended.blocks table found
      have block' : cache'.getBlock seqId layer tokenPos = .ok phys := by
        apply getBlock_eq_ok.mpr
        rw [pool]
        exact ⟨table', found', kept _ _ _ here⟩
      rw [block] at read
      rw [block', pool]
      exact read

theorem createSequence_extends (owned : Owned capacity blockSize cache) (seqId : Nat) :
    Extends seqId cache cache.createSequence.2 := by
  constructor
  · exact ⟨cache.pool.freeList, rfl⟩
  · intro table found
    have old : seqId ≠ cache.nextSeqId := by
      rintro rfl
      have live : cache.nextSeqId ∈ cache.sequences := AList.lookup_isSome.mp (by rw [found]; rfl)
      exact absurd (owned.fresh _ live) (Nat.lt_irrefl _)
    rw [createSequence, AList.lookup_insert_ne old]
    exact ⟨table, found, fun _ _ _ here => here⟩

theorem dropSequence_extends (cache : PagedKvCache Element) {other : Nat} (apart : seqId ≠ other) :
    Extends seqId cache (cache.dropSequence other).2 := by
  unfold dropSequence
  split
  · exact ⟨⟨cache.pool.freeList, rfl⟩, fun table found => ⟨table, found, fun _ _ _ here => here⟩⟩
  · constructor
    · simp only [foldl_free]
      exact ⟨_, rfl⟩
    · intro table found
      rw [AList.lookup_erase_ne apart]
      exact ⟨table, found, fun _ _ _ here => here⟩

theorem getBlock_appendBlock (table : BlockTable) (grown physicalIdx : Nat) {logical phys : Nat}
    (here : table.getBlock layer logical = some phys) :
    (table.appendBlock grown physicalIdx).getBlock layer logical = some phys := by
  obtain ⟨blocks, present, found⟩ := Option.bind_eq_some_iff.mp here
  rw [BlockTable.getBlock, BlockTable.appendBlock, getElem?_modify, present]
  split
  · have inside := (List.getElem?_eq_some_iff.mp found).1
    change (blocks ++ [physicalIdx])[logical]? = some phys
    rw [getElem?_append_left inside, found]
  · exact found

theorem allocateBlocks_extends (owner seqId : Nat) (layers : List Nat) (cache : PagedKvCache Element) :
    Extends seqId cache (cache.allocateBlocks owner layers).2 := by
  induction layers generalizing cache with
  | nil => exact ⟨⟨cache.pool.freeList, rfl⟩, fun table found => ⟨table, found, fun _ _ _ here => here⟩⟩
  | cons layer rest ih =>
      rw [allocateBlocks]
      split
      · exact ⟨⟨cache.pool.freeList, rfl⟩, fun table found => ⟨table, found, fun _ _ _ here => here⟩⟩
      · rename_i phys pool allocated
        have same := (Prod.mk.inj allocated).2
        split
        · exact ⟨⟨_, same.symm⟩, fun table found => ⟨table, found, fun _ _ _ here => here⟩⟩
        · rename_i table found
          refine Extends.trans ?_ (ih _)
          constructor
          · exact ⟨_, same.symm⟩
          · intro table' found'
            by_cases equal : seqId = owner
            · subst equal
              rw [found] at found'
              cases found'
              rw [AList.lookup_insert]
              exact ⟨_, rfl, fun _ _ _ here => getBlock_appendBlock table layer phys here⟩
            · rw [AList.lookup_insert_ne equal]
              exact ⟨table', found', fun _ _ _ here => here⟩

theorem ensureCapacity_extends (cache : PagedKvCache Element) (owner seqId numTokens : Nat) :
    Extends seqId cache (cache.ensureCapacity owner numTokens).2 := by
  unfold ensureCapacity
  split
  · exact ⟨⟨cache.pool.freeList, rfl⟩, fun table found => ⟨table, found, fun _ _ _ here => here⟩⟩
  · apply allocateBlocks_extends

/-- The pair in the slot of a position on a page. -/
def slotOf (cache : PagedKvCache Element) (tokenPos phys : Nat) : List Element × List Element :=
  let offset := tokenPos % cache.pool.blockSize * cache.pool.slotLen
  (slice (cache.pool.page phys).keys offset cache.pool.slotLen,
    slice (cache.pool.page phys).values offset cache.pool.slotLen)

theorem readKv_eq_ok {tokenPos : Nat} : cache.readKv seqId layer tokenPos = .ok pair ↔
      ∃ phys, cache.getBlock seqId layer tokenPos = .ok phys ∧ cache.slotOf tokenPos phys = pair := by
  unfold readKv
  cases cache.getBlock seqId layer tokenPos <;> simp [slotOf]

section StoreSlot

variable (owned : Owned capacity blockSize cache) (positive : 0 < blockSize)
  {tokenPos phys : Nat} (inside : phys < cache.pool.pages.length)
  {key value : List Element} (keyLength : key.length = cache.pool.slotLen)
  (valueLength : value.length = cache.pool.slotLen)
include owned positive inside keyLength valueLength

/-- The stored slot lies inside the key and the value of its page. -/
theorem storeSlot_inside : tokenPos % cache.pool.blockSize * cache.pool.slotLen + key.length ≤
        (cache.pool.page phys).keys.length ∧ tokenPos % cache.pool.blockSize * cache.pool.slotLen + value.length ≤
        (cache.pool.page phys).values.length := by
  have member : cache.pool.page phys ∈ cache.pool.pages := by
    rw [BlockPool.page, getD_eq_getElem?_getD, getElem?_eq_getElem inside]
    exact getElem_mem inside
  obtain ⟨keys, values⟩ := owned.lengths _ member
  have slot := slot_inside positive tokenPos cache.pool.slotLen
  rw [keys, values, keyLength, valueLength, owned.size]
  exact ⟨slot, slot⟩

omit owned positive keyLength valueLength in
theorem page_storeSlot : (cache.storeSlot phys tokenPos key value).pool.page phys =
    ⟨copyFromSlice (cache.pool.page phys).keys (tokenPos % cache.pool.blockSize * cache.pool.slotLen) key,
      copyFromSlice (cache.pool.page phys).values (tokenPos % cache.pool.blockSize * cache.pool.slotLen) value⟩ := by
  have present := getElem?_eq_getElem inside
  simp [BlockPool.page, storeSlot, getD_eq_getElem?_getD, present]

theorem slotOf_storeSlot : (cache.storeSlot phys tokenPos key value).slotOf tokenPos phys = (key, value) := by
  obtain ⟨keys, values⟩ := @storeSlot_inside _ _ _ _ owned positive tokenPos _ inside _ _ keyLength valueLength
  rw [slotOf, page_storeSlot inside]
  exact Prod.ext (slice_copyFromSlice keys keyLength) (slice_copyFromSlice values valueLength)

/-- Two positions in one page have disjoint slots. -/
theorem slotOf_storeSlot_other {tokenPos' : Nat}
    (apart : tokenPos' % cache.pool.blockSize ≠ tokenPos % cache.pool.blockSize) :
    (cache.storeSlot phys tokenPos key value).slotOf tokenPos' phys = cache.slotOf tokenPos' phys := by
  obtain ⟨keys, values⟩ := @storeSlot_inside _ _ _ _ owned positive tokenPos _ inside _ _ keyLength valueLength
  have disjoint (length : Nat) (full : length = cache.pool.slotLen) :
      tokenPos' % cache.pool.blockSize * cache.pool.slotLen + cache.pool.slotLen ≤
          tokenPos % cache.pool.blockSize * cache.pool.slotLen ∨
        tokenPos % cache.pool.blockSize * cache.pool.slotLen + length ≤
          tokenPos' % cache.pool.blockSize * cache.pool.slotLen := by
    rw [full, ← Nat.succ_mul, ← Nat.succ_mul]
    rcases Nat.lt_or_gt_of_ne apart with before | after
    · exact Or.inl (Nat.mul_le_mul_right _ before)
    · exact Or.inr (Nat.mul_le_mul_right _ after)
  rw [slotOf, page_storeSlot inside]
  exact Prod.ext (slice_copyFromSlice_apart keys (disjoint _ keyLength))
    (slice_copyFromSlice_apart values (disjoint _ valueLength))

end StoreSlot

theorem slotOf_storeSlot_page (cache : PagedKvCache Element) {tokenPos tokenPos' phys phys' : Nat}
    (apart : phys' ≠ phys) (key value : List Element) :
    (cache.storeSlot phys tokenPos key value).slotOf tokenPos' phys' = cache.slotOf tokenPos' phys' := by
  have same : (cache.storeSlot phys tokenPos key value).pool.page phys' = cache.pool.page phys' := by
    simp [BlockPool.page, storeSlot, getD_eq_getElem?_getD, Ne.symm apart]
  rw [slotOf, same]
  rfl

/-- A read at any other place keeps its result when a slot is stored. -/
theorem readKv_storeSlot_other (owned : Owned capacity blockSize cache) (positive : 0 < blockSize)
    {tokenPos phys seqId' layer' tokenPos' : Nat} {key value : List Element}
    (keyLength : key.length = cache.pool.slotLen) (valueLength : value.length = cache.pool.slotLen)
    (block : cache.getBlock seqId layer tokenPos = .ok phys)
    (apart : ¬(seqId' = seqId ∧ layer' = layer ∧ tokenPos' = tokenPos))
    (read : cache.readKv seqId' layer' tokenPos' = .ok pair) :
    (cache.storeSlot phys tokenPos key value).readKv seqId' layer' tokenPos' = .ok pair := by
  obtain ⟨phys', block', slot⟩ := readKv_eq_ok.mp read
  apply readKv_eq_ok.mpr
  refine ⟨phys', block', ?_⟩
  rw [← slot]
  by_cases same : phys' = phys
  · subst same
    obtain ⟨table, found, here⟩ := getBlock_eq_ok.mp block
    obtain ⟨table', found', here'⟩ := getBlock_eq_ok.mp block'
    obtain ⟨rfl, rfl, logical⟩ := owned.injective found found' here here'
    apply slotOf_storeSlot_other owned positive (owned.inside found here) keyLength valueLength
    intro offset
    have quotient := Nat.div_add_mod tokenPos cache.pool.blockSize
    have quotient' := Nat.div_add_mod tokenPos' cache.pool.blockSize
    rw [logical, ← offset, quotient'] at quotient
    exact apart ⟨rfl, rfl, quotient⟩
  · exact slotOf_storeSlot_page cache same key value

/-- A successful write grows the block lists and then stores the pair in a page of the sequence. -/
theorem writeKv_ok {tokenPos : Nat} {key value : List Element}
    (written : (cache.writeKv seqId layer tokenPos key value).1 = .ok ()) :
    ∃ phys, key.length = cache.pool.slotLen ∧ value.length = cache.pool.slotLen ∧
      (cache.ensureCapacity seqId ((tokenPos + 1) % 2 ^ 64)).2.getBlock seqId layer tokenPos = .ok phys ∧
      (cache.writeKv seqId layer tokenPos key value).2 =
        (cache.ensureCapacity seqId ((tokenPos + 1) % 2 ^ 64)).2.storeSlot phys tokenPos key value := by
  rcases writeKv_cases cache seqId layer tokenPos key value with
    ⟨error, result⟩ | ⟨error, result⟩ | ⟨phys, keyLength, valueLength, block, result⟩
  · rw [result] at written
    cases written
  · rw [result] at written
    cases written
  · rw [result]
    exact ⟨phys, keyLength, valueLength, block, rfl⟩

/-- A read after a successful write to its place gives the written pair. -/
theorem readKv_writeKv (owned : Owned capacity blockSize cache) (positive : 0 < blockSize) {tokenPos : Nat}
    {key value : List Element} (written : (cache.writeKv seqId layer tokenPos key value).1 = .ok ()) :
    (cache.writeKv seqId layer tokenPos key value).2.readKv seqId layer tokenPos = .ok (key, value) := by
  obtain ⟨phys, keyLength, valueLength, block, result⟩ := writeKv_ok written
  have grown := ensureCapacity_owned owned seqId ((tokenPos + 1) % 2 ^ 64)
  obtain ⟨freeList, pool⟩ := ensureCapacity_pool cache seqId ((tokenPos + 1) % 2 ^ 64)
  obtain ⟨table, found, here⟩ := getBlock_eq_ok.mp block
  rw [result]
  apply readKv_eq_ok.mpr
  refine ⟨phys, block, slotOf_storeSlot grown positive (grown.inside found here) ?_ ?_⟩
  · rw [pool]
    exact keyLength
  · rw [pool]
    exact valueLength

/-- A call touches a place if it drops the sequence or writes there with success. -/
def touches (seqId layer tokenPos : Nat) (cache : PagedKvCache Element) : Operation Element → Prop
  | .drop seqId' => seqId' = seqId
  | .write seqId' layer' tokenPos' key value => seqId' = seqId ∧ layer' = layer ∧ tokenPos' = tokenPos ∧
      (cache.writeKv seqId' layer' tokenPos' key value).1 = .ok ()
  | _ => False

/-- A call that does not touch a place keeps a successful read there. -/
theorem readKv_step (owned : Owned capacity blockSize cache) (positive : 0 < blockSize) {tokenPos : Nat}
    (operation : Operation Element) (untouched : ¬touches seqId layer tokenPos cache operation)
    (read : cache.readKv seqId layer tokenPos = .ok pair) :
    (cache.step operation).readKv seqId layer tokenPos = .ok pair := by
  cases operation with
  | create => exact (createSequence_extends owned seqId).readKv read
  | drop seqId' => exact (dropSequence_extends cache fun same => untouched same.symm).readKv read
  | ensure seqId' numTokens => exact (ensureCapacity_extends cache seqId' seqId numTokens).readKv read
  | read => exact read
  | write seqId' layer' tokenPos' key value =>
      have extended := ensureCapacity_extends cache seqId' seqId ((tokenPos' + 1) % 2 ^ 64)
      have grown := ensureCapacity_owned owned seqId' ((tokenPos' + 1) % 2 ^ 64)
      have later := extended.readKv read
      change (cache.writeKv seqId' layer' tokenPos' key value).2.readKv _ _ _ = _
      rcases writeKv_cases cache seqId' layer' tokenPos' key value with
        ⟨error, result⟩ | ⟨error, result⟩ | ⟨phys, keyLength, valueLength, block, result⟩
      · rw [result]
        exact read
      · rw [result]
        exact later
      · obtain ⟨freeList, pool⟩ := ensureCapacity_pool cache seqId' ((tokenPos' + 1) % 2 ^ 64)
        rw [result]
        apply readKv_storeSlot_other grown positive _ _ block _ later
        · rw [pool]
          exact keyLength
        · rw [pool]
          exact valueLength
        · rintro ⟨rfl, rfl, rfl⟩
          exact untouched ⟨rfl, rfl, rfl, by rw [result]⟩

/-- No call of the sequence touches the place. -/
def Untouched (seqId layer tokenPos : Nat) (cache : PagedKvCache Element) :
    List (Operation Element) → Prop
  | [] => True
  | operation :: rest => ¬touches seqId layer tokenPos cache operation ∧
      Untouched seqId layer tokenPos (cache.step operation) rest

theorem readKv_run (owned : Owned capacity blockSize cache) (positive : 0 < blockSize) {tokenPos : Nat}
    (operations : List (Operation Element)) (untouched : Untouched seqId layer tokenPos cache operations)
    (read : cache.readKv seqId layer tokenPos = .ok pair) :
    (cache.run operations).readKv seqId layer tokenPos = .ok pair := by
  induction operations generalizing cache with
  | nil => exact read
  | cons operation rest ih =>
      exact ih (step_owned owned positive operation) untouched.2
        (readKv_step owned positive operation untouched.1 read)

end Pictor.PagedKvCache

namespace Pictor.PagedKvCache

variable {Element : Type} {capacity blockSize : Nat} {cache : PagedKvCache Element}

/-- The abstract store maps a sequence, a layer and a position to the pair written there. -/
abbrev Ledger (Element : Type) := Nat → Nat → Nat → Option (List Element × List Element)

/-- A creation and a removal clear the sequence, and a successful write sets its place. -/
def Ledger.record (cache : PagedKvCache Element) (ledger : Ledger Element) :
    Operation Element → Ledger Element
  | .create => fun seqId layer tokenPos =>
      if seqId = cache.nextSeqId then none else ledger seqId layer tokenPos
  | .drop other => fun seqId layer tokenPos =>
      if seqId = other then none else ledger seqId layer tokenPos
  | .write other layer' tokenPos' key value =>
      match (cache.writeKv other layer' tokenPos' key value).1 with
      | .error _ => ledger
      | .ok _ => fun seqId layer tokenPos =>
          if seqId = other ∧ layer = layer' ∧ tokenPos = tokenPos' then some (key, value)
          else ledger seqId layer tokenPos
  | .ensure _ _ => ledger
  | .read _ _ _ => ledger

/-- The abstract store after a sequence of calls. -/
def Ledger.after (cache : PagedKvCache Element) (ledger : Ledger Element) :
    List (Operation Element) → Ledger Element
  | [] => ledger
  | operation :: rest => Ledger.after (cache.step operation) (ledger.record cache operation) rest

/-- The number of token positions that the blocks of a sequence cover in a layer. -/
def tokenCapacity (cache : PagedKvCache Element) (seqId layer : Nat) : Nat :=
  (cache.sequences.lookup seqId).elim 0 fun table => table.tokenCapacity layer

/-- A read succeeds exactly below the token capacity. -/
theorem readKv_ok_iff (owned : Owned capacity blockSize cache) (positive : 0 < blockSize)
    (seqId layer tokenPos : Nat) : (∃ pair, cache.readKv seqId layer tokenPos = .ok pair) ↔
      tokenPos < cache.tokenCapacity seqId layer := by
  have reads : (∃ pair, cache.readKv seqId layer tokenPos = .ok pair) ↔
      ∃ phys, cache.getBlock seqId layer tokenPos = .ok phys := by
    simp only [readKv_eq_ok]
    constructor
    · rintro ⟨_, phys, block, _⟩
      exact ⟨phys, block⟩
    · rintro ⟨phys, block⟩
      exact ⟨_, phys, block, rfl⟩
  rw [reads, tokenCapacity]
  simp only [getBlock_eq_ok]
  cases found : cache.sequences.lookup seqId with
  | none => simp
  | some table =>
      obtain ⟨_, size⟩ := owned.tables seqId table found
      simp only [Option.some.injEq, exists_eq_left', Option.elim_some, BlockTable.tokenCapacity, size,
        owned.size, BlockTable.getBlock, BlockTable.numBlocks]
      cases table.blocks[layer]? with
      | none => simp
      | some blocks => simp [List.getElem?_eq_some_iff, Nat.div_lt_iff_lt_mul positive]

variable [Zero Element] (numLayers numKvHeads headDim : Nat)

/-- The pages are partitioned after every run. After a successful write a read gives the written pair
until the sequence is dropped or its place is written again. -/
theorem run_pages_partition_and_read_back (positive : 0 < blockSize) (before : List (Operation Element)) :
    let cache := (newWithBlockSize capacity blockSize numLayers numKvHeads headDim).run before
    (cache.pool.freeList ++ ownedPages cache.sequences).Perm (List.range capacity) ∧
    ∀ seqId layer tokenPos key value after,
      (cache.writeKv seqId layer tokenPos key value).1 = .ok () →
      Untouched seqId layer tokenPos (cache.writeKv seqId layer tokenPos key value).2 after →
      ((cache.writeKv seqId layer tokenPos key value).2.run after).readKv seqId layer tokenPos =
        .ok (key, value) := by
  intro cache
  have owned : Owned capacity blockSize cache :=
    run_owned (newWithBlockSize_owned capacity blockSize numLayers numKvHeads headDim) positive before
  refine ⟨owned.partition, ?_⟩
  intro seqId layer tokenPos key value after written untouched
  apply readKv_run (writeKv_owned owned positive seqId layer tokenPos key value) positive after untouched
  exact readKv_writeKv owned positive written

/-- A cache of three pages with two slots of one element each. -/
def smallCache : PagedKvCache UInt32 := newWithBlockSize 3 2 1 1 1

/-- Calls on another sequence and at another position. -/
def otherCalls : List (Operation UInt32) :=
  [.write 1 0 1 [5] [6], .write 0 0 0 [3] [4], .ensure 0 9, .drop 1, .create]

theorem run_pages_partition_and_read_back_otherCalls :
    let cache := smallCache.run [.create, .create]
    (cache.pool.freeList ++ ownedPages cache.sequences).Perm (List.range 3) ∧
      ((cache.writeKv 0 0 1 [1] [2]).2.run otherCalls).readKv 0 0 1 = .ok ([1], [2]) := by
  have claim := @run_pages_partition_and_read_back UInt32 3 2 _ 1 1 1 (by decide) [.create, .create]
  refine ⟨claim.1, claim.2 0 0 1 [1] [2] otherCalls rfl ?_⟩
  refine ⟨fun touched => ?_, fun touched => ?_, id, fun touched => ?_, id, trivial⟩
  · exact absurd touched.1 (by decide)
  · exact absurd touched.2.2.1 (by decide)
  · exact Nat.one_ne_zero touched

/-- The second sequence gets the page of the first one and reads a position it has not written. -/
def recycledCalls : List (Operation UInt32) :=
  [.create, .write 0 0 1 [7] [8], .drop 0, .create, .ensure 1 1]

end Pictor.PagedKvCache
