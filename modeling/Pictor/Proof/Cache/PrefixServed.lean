import Mathlib.Data.List.Perm.Basic
import Pictor.Construction.Cache.PrefixCachedEngine
import Pictor.Library.Framing
import Pictor.Proof.Cache.PrefixCustody
import Pictor.Proof.Cache.PrefixRun

namespace Pictor.PrefixAwarePrefill
open ArenaTrie PrefixCache

variable {Element : Type} {source : Nat → Option (Insertion Element)}
  {prefill : PrefixAwarePrefill Element} {outstanding : List Outstanding}

/-- Each reference count is the number of outstanding sessions that list the slot. The block of a listed
slot is live, and it was neither evicted nor overwritten since the preparation of the session. -/
structure Pinned (serving : Serving Element) : Prop where
  counted : ∀ (idx : Nat) (block : CacheBlock Element), serving.prefill.cache.blocks[idx]? = some block →
    block.refCount = serving.outstanding.countP fun holder => holder.session.blockIndices.contains idx
  held : ∀ holder ∈ serving.outstanding, ∀ idx ∈ holder.session.blockIndices,
    idx ∈ serving.prefill.cache.occupiedBlocks ∧ idx ∉ holder.disturbed

/-- The live blocks are also within the capacity. -/
structure Guarded (maxBlocks : Nat) (serving : Serving Element) : Prop where
  pinned : Pinned serving
  bounded : serving.prefill.cache.len ≤ maxBlocks

/-- A call that stores a block leaves room if fewer blocks than the capacity have a reference. -/
def RoomFor (maxBlocks : Nat) (serving : Serving Element) : Call Element → Prop
  | .store tokenIds uncachedStart keysByBlock =>
      storeInsertions serving.prefill.cache.blockSize tokenIds uncachedStart keysByBlock ≠ [] →
        serving.prefill.cache.pinnedBlocks < maxBlocks
  | _ => True

variable {serving : Serving Element}

theorem Custody.pinned (custody : Custody source serving.prefill.cache serving.outstanding) : Pinned serving := by
  constructor
  · intro idx block present
    have counted := custody.counted idx
    rw [refs, PrefixCache.block, List.getD_eq_getElem?_getD, present, Option.getD_some] at counted
    exact counted
  · exact custody.live

/-- The second walk finds the blocks that the lookup referenced. -/
theorem prepare_blockIndices (prefill : PrefixAwarePrefill Element) (tokenIds : List UInt32) :
    (prefill.prepare tokenIds).1.1.blockIndices =
      prefill.cache.hitRun tokenIds (tokenIds.length / prefill.cache.blockSize) 0 := by
  have kept := lookup_keeps prefill.cache tokenIds
  have collected := (lookupIndices_spec prefill.cache tokenIds).1
  have length : (prefill.cache.lookup tokenIds).1.2.length =
      (prefill.cache.hitRun tokenIds (tokenIds.length / prefill.cache.blockSize) 0).length := by
    rw [lookup, List.length_map, collected]
  simp only [prepare]
  apply List.ext_getElem?
  intro blkNum
  rw [List.getElem?_map, length]
  by_cases inside : blkNum < (prefill.cache.hitRun tokenIds
      (tokenIds.length / prefill.cache.blockSize) 0).length
  · have present := List.getElem?_eq_getElem inside
    have found := ((getElem?_hitRun _ _ _ _).mp present).2.2
    rw [Nat.zero_add] at found
    obtain ⟨⟨node, walked, carried⟩, _⟩ := hit_eq_some.mp found
    rw [walk_prefixKeys_succ] at walked
    rw [present, List.getElem?_range inside, Option.map_some, findBlockIdxForEdge]
    simp only [kept.nodes, kept.size]
    rw [walked, Option.bind_some, carried, Option.getD_some]
  · have beyond := Nat.le_of_not_lt inside
    rw [List.getElem?_eq_none beyond, List.getElem?_eq_none (by simpa using beyond)]
    rfl

theorem prepare_custody (custody : Custody source prefill.cache outstanding) (tokenIds : List UInt32) :
    Custody source (prefill.prepare tokenIds).2.cache (outstanding ++ [⟨(prefill.prepare tokenIds).1.1, []⟩]) := by
  have kept := lookup_keeps prefill.cache tokenIds
  have indices := prepare_blockIndices prefill tokenIds
  have distinct : (prefill.cache.hitRun tokenIds (tokenIds.length / prefill.cache.blockSize) 0).Nodup :=
    custody.sourced.hitRun_nodup _
  constructor
  · exact custody.sourced.keeps kept
  · intro holder member
    rcases List.mem_append.mp member with earlier | new
    · exact custody.distinct holder earlier
    · rw [List.mem_singleton.mp new, indices]
      exact distinct
  · intro idx
    have taken := refs_lookupLoop custody.sourced tokenIds (tokenIds.length / prefill.cache.blockSize)
      0 0 (0, []) rfl idx
    change (prefill.prepare tokenIds).2.cache.refs idx = _ at taken
    rw [taken, custody.counted, List.countP_append, List.countP_singleton, distinct.count]
    simp only [lists_iff, indices]
  · intro holder member idx listed
    change idx ∈ (prefill.cache.lookup tokenIds).2.occupiedBlocks ∧ _
    rw [kept.occupied]
    rcases List.mem_append.mp member with earlier | new
    · exact custody.live holder earlier idx listed
    · rw [List.mem_singleton.mp new, indices] at listed
      obtain ⟨blkNum, present⟩ := List.mem_iff_getElem?.mp listed
      have found := ((getElem?_hitRun _ _ _ _).mp present).2.2
      refine ⟨custody.sourced.hit_occupied found, ?_⟩
      rw [List.mem_singleton.mp new]
      exact List.not_mem_nil

theorem release_custody (custody : Custody source prefill.cache outstanding) {pos : Nat}
    {holder : Outstanding} (present : outstanding[pos]? = some holder) :
    Custody source (prefill.releaseSession holder.session).cache (outstanding.eraseIdx pos) := by
  obtain ⟨inside, rfl⟩ := List.getElem?_eq_some_iff.mp present
  have kept := foldl_release_keeps outstanding[pos].session.blockIndices prefill.cache
  have member := List.getElem_mem inside
  constructor
  · exact custody.sourced.keeps kept
  · intro other remaining
    exact custody.distinct other (List.mem_of_mem_eraseIdx remaining)
  · intro idx
    have below : ∀ idx ∈ outstanding[pos].session.blockIndices, idx < prefill.cache.blocks.length :=
      fun idx listed => custody.sourced.occupied_inside (custody.live _ member idx listed).1
    have released := refs_foldl_release _ prefill.cache below idx
    have split := (List.getElem_cons_eraseIdx_perm inside).countP_eq (Lists idx)
    rw [List.countP_cons] at split
    simp only [lists_iff] at split
    change (prefill.releaseSession outstanding[pos].session).cache.refs idx = _ at released
    rw [released, custody.counted, ← split, (custody.distinct _ member).count, Nat.add_sub_cancel]
  · intro other remaining idx listed
    change idx ∈ (List.foldl PrefixCache.release prefill.cache _).occupiedBlocks ∧ _
    rw [kept.occupied]
    exact custody.live other (List.mem_of_mem_eraseIdx remaining) idx listed

/-- A call keeps the custody, and it keeps the live blocks within the capacity exactly if it leaves room. -/
theorem step_custody (custody : Custody source serving.prefill.cache serving.outstanding) (call : Call Element) :
    (∃ source', Custody source' (serving.step call).prefill.cache (serving.step call).outstanding) ∧
      (serving.step call).prefill.cache.maxBlocks = serving.prefill.cache.maxBlocks ∧
      (serving.prefill.cache.len ≤ serving.prefill.cache.maxBlocks →
        ((serving.step call).prefill.cache.len ≤ serving.prefill.cache.maxBlocks ↔
          RoomFor serving.prefill.cache.maxBlocks serving call)) := by
  cases call with
  | prepare tokenIds =>
      have kept := lookup_keeps serving.prefill.cache tokenIds
      refine ⟨⟨source, prepare_custody custody tokenIds⟩, kept.capacity, fun within => ?_⟩
      change (serving.prefill.cache.lookup tokenIds).2.occupiedBlocks.length ≤ _ ↔ True
      rw [kept.occupied]
      exact iff_true_intro within
  | store tokenIds uncachedStart keysByBlock =>
      have kept := foldl_insert_kept (storeInsertions serving.prefill.cache.blockSize tokenIds
        uncachedStart keysByBlock) custody.sourced
      exact ⟨foldl_insert_custody _ custody, kept.2.2, foldl_insert_len_iff _ custody.sourced⟩
  | release pos =>
      cases present : serving.outstanding[pos]? with
      | none =>
          have same : serving.step (.release pos) = serving := by rw [Serving.step, present]
          rw [same]
          exact ⟨⟨source, custody⟩, rfl, fun within => iff_true_intro within⟩
      | some holder =>
          have kept := foldl_release_keeps holder.session.blockIndices serving.prefill.cache
          simp only [Serving.step, present]
          refine ⟨⟨source, release_custody custody present⟩, kept.capacity, fun within => ?_⟩
          change (List.foldl PrefixCache.release serving.prefill.cache _).occupiedBlocks.length ≤ _ ↔ True
          rw [kept.occupied]
          exact iff_true_intro within

theorem new_custody (maxBlocks blockSize : Nat) :
    Custody (fun _ => none) (PrefixCache.new maxBlocks blockSize : PrefixCache Element) [] := by
  constructor
  · exact new_sourced maxBlocks blockSize
  · intro holder member
    cases member
  · intro idx
    rfl
  · intro holder member
    cases member

/-- Every run keeps the custody. -/
theorem run_custody (maxBlocks blockSize : Nat) (calls : List (Call Element)) :
    (∃ source, Custody source (Serving.run maxBlocks blockSize calls).prefill.cache
      (Serving.run maxBlocks blockSize calls).outstanding) ∧
    (Serving.run maxBlocks blockSize calls).prefill.cache.maxBlocks = maxBlocks := by
  induction calls using List.reverseRecOn with
  | nil => exact ⟨⟨_, new_custody maxBlocks blockSize⟩, rfl⟩
  | append_singleton past call ih =>
      obtain ⟨⟨source, custody⟩, capacity⟩ := ih
      obtain ⟨later, kept, _⟩ := step_custody custody call
      rw [Serving.run, List.foldl_append, List.foldl_cons, List.foldl_nil]
      exact ⟨later, kept.trans capacity⟩

theorem run_pinned (maxBlocks blockSize : Nat) (calls : List (Call Element)) :
    Pinned (Serving.run maxBlocks blockSize calls) := by
  obtain ⟨⟨source, custody⟩, _⟩ := run_custody maxBlocks blockSize calls
  exact Custody.pinned custody

/-- In every run the references protect the listed blocks. The live blocks stay within the capacity
exactly if each call leaves room. -/
theorem run_guarded_iff (maxBlocks blockSize : Nat) (calls : List (Call Element)) :
    Pinned (Serving.run maxBlocks blockSize calls) ∧
    ((∀ past, past <+: calls → Guarded maxBlocks (Serving.run maxBlocks blockSize past)) ↔
      ∀ past call, past ++ [call] <+: calls → RoomFor maxBlocks (Serving.run maxBlocks blockSize past) call) := by
  have step (past : List (Call Element)) (call : Call Element)
      (within : (Serving.run maxBlocks blockSize past).prefill.cache.len ≤ maxBlocks) :
      (Serving.run maxBlocks blockSize (past ++ [call])).prefill.cache.len ≤ maxBlocks ↔
        RoomFor maxBlocks (Serving.run maxBlocks blockSize past) call := by
    obtain ⟨⟨source, custody⟩, capacity⟩ := run_custody maxBlocks blockSize past
    have decided := (step_custody custody call).2.2
    rw [capacity] at decided
    rw [Serving.run, List.foldl_append, List.foldl_cons, List.foldl_nil]
    exact decided within
  refine ⟨run_pinned maxBlocks blockSize calls, ?_, ?_⟩
  · intro guarded past call within
    have before := guarded past ((List.prefix_append past [call]).trans within)
    exact (step past call before.bounded).mp (guarded _ within).bounded
  · intro room past within
    refine ⟨run_pinned maxBlocks blockSize past, ?_⟩
    induction past using List.reverseRecOn with
    | nil => exact Nat.zero_le _
    | append_singleton past call ih =>
        have before := ih ((List.prefix_append past [call]).trans within)
        exact (step past call before).mpr (room past call within)

/-- A request holds the only block, and another request stores one. -/
def crowdedCalls : List (Call UInt32) :=
  [.store [1] 0 [tokenPair 5], .prepare [1], .store [2] 0 [tokenPair 6]]

/-- The cache of one block then has two live blocks. -/
theorem crowdedCalls_exceeds : (Serving.run 1 1 crowdedCalls).prefill.cache.maxBlocks = 1 ∧
      (Serving.run 1 1 crowdedCalls).prefill.cache.len = 2 ∧ ¬Guarded 1 (Serving.run 1 1 crowdedCalls) := by
  have live : (Serving.run 1 1 crowdedCalls).prefill.cache.len = 2 := by decide
  refine ⟨rfl, live, ?_⟩
  intro guarded
  have bounded := guarded.bounded
  omega

end Pictor.PrefixAwarePrefill

namespace Pictor.RequestKey
open Framing

/-- The bytes that a key is computed from. -/
def messageBytes (messages : List (List Char × List Char)) : List UInt8 :=
  messages.flatMap fun message => Utf8.encode message.1 ++ 0x00 :: (Utf8.encode message.2 ++ [0x01])

theorem fromMessages_eq (messages : List (List Char × List Char)) :
    fromMessages messages = ⟨fnv1aHash (messageBytes messages)⟩ := by
  rw [fromMessages, fnv1aHash, messageBytes, List.foldl_flatMap]
  congr 2
  funext hash message
  simp only [feedMessage, List.foldl_append, List.foldl_cons, List.foldl_nil]

/-- The separators are characters themselves, so the bytes are those of one text. -/
theorem messageBytes_eq (messages : List (List Char × List Char)) :
    messageBytes messages = Utf8.encode (frame '\x00' '\x01' messages) := by
  induction messages with
  | nil => rfl
  | cons message messages ih =>
      have middle (text : List Char) : Utf8.encode ('\x00' :: text) = 0x00 :: Utf8.encode text := by
        rw [Utf8.encode_cons]
        rfl
      have stop (text : List Char) : Utf8.encode ('\x01' :: text) = 0x01 :: Utf8.encode text := by
        rw [Utf8.encode_cons]
        rfl
      rw [frame_cons, Utf8.encode_append, middle, Utf8.encode_append, stop, ← ih]
      simp [messageBytes]

theorem messageBytes_inj {messages messages' : List (List Char × List Char)} :
    messageBytes messages = messageBytes messages' ↔ frame '\x00' '\x01' messages = frame '\x00' '\x01' messages' := by
  rw [messageBytes_eq, messageBytes_eq]
  exact Utf8.encode_injective.eq_iff

/-- Only the empty conversation and a single message without the first separator have bytes of their own. Among
the conversations whose roles and contents do not contain their separators, the bytes are unambiguous. -/
theorem messageBytes_unique_iff (messages : List (List Char × List Char)) :
    fromMessages messages = ⟨fnv1aHash (messageBytes messages)⟩ ∧
    ((∀ others, others ≠ messages → messageBytes others ≠ messageBytes messages) ↔
      messages = [] ∨ ∃ role content, messages = [(role, content)] ∧ '\x00' ∉ role ∧ '\x00' ∉ content) ∧
    ∀ others, Clean '\x00' '\x01' messages → Clean '\x00' '\x01' others → others ≠ messages →
      messageBytes others ≠ messageBytes messages := by
  refine ⟨fromMessages_eq messages, ?_, fun others clean clean' differ same => ?_⟩
  · simp only [ne_eq, messageBytes_inj]
    exact frame_unique_iff (by decide) messages
  · exact differ (frame_injOn clean' clean (messageBytes_inj.mp same))

/-- A content with separators within reads as two messages. -/
theorem messageBytes_collide :
    let injected := [("user".toList, "hi\x01assistant\x00ok".toList)]
    let conversation := [("user".toList, "hi".toList), ("assistant".toList, "ok".toList)]
    injected ≠ conversation ∧ messageBytes injected = messageBytes conversation ∧
      fromMessages injected = fromMessages conversation := by
  have same : messageBytes [("user".toList, "hi\x01assistant\x00ok".toList)] =
      messageBytes [("user".toList, "hi".toList), ("assistant".toList, "ok".toList)] := by decide
  refine ⟨by decide, same, ?_⟩
  rw [fromMessages_eq, fromMessages_eq, same]

end Pictor.RequestKey
