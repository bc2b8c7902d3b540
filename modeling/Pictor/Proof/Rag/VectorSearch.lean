import Pictor.Construction.Rag.VectorStore

namespace Pictor.VectorSearch
open List

variable {Scalar Score Chunk : Type} [LinearOrder Score]

/-- The stores that calls lead to when each loaded snapshot is a good one. -/
inductive Reached (geometry : Geometry Scalar Score) (good : IndexSnapshot Scalar Chunk → Prop) :
    VectorStore Scalar Chunk → Prop where
  | new (dim : Nat) (distance : Distance) : Reached geometry good (newWithDistance dim distance)
  | insert {store store' : VectorStore Scalar Chunk} {vector : List Scalar} {chunk : Chunk} {id : Nat}
      (reached : Reached geometry good store) (inserted : insert geometry store vector chunk = .ok (id, store')) :
      Reached geometry good store'
  | clear {store : VectorStore Scalar Chunk} (reached : Reached geometry good store) : Reached geometry good (clear store)
  | load {store : VectorStore Scalar Chunk} {snapshot : IndexSnapshot Scalar Chunk} (fine : good snapshot)
      (loaded : fromSnapshot snapshot = .ok store) : Reached geometry good store

/-- The id of each entry is its position. -/
def Numbered (entries : List (VectorEntry Scalar Chunk)) : Prop :=
  entries.map VectorEntry.id = List.range entries.length

variable {geometry : Geometry Scalar Score} {store : VectorStore Scalar Chunk}

omit [LinearOrder Score] in
theorem Reached.numbered (reached : Reached geometry (fun snapshot => Numbered snapshot.entries) store) :
    Numbered store.entries := by
  induction reached with
  | new dim distance => rfl
  | insert _ inserted numbered =>
      rw [VectorSearch.insert] at inserted
      split at inserted
      · cases inserted
      · split at inserted
        · cases inserted
        · cases inserted
          rw [Numbered, map_append, numbered, length_append]
          exact List.range_succ.symm
  | clear _ _ => rfl
  | load numbered loaded =>
      rw [fromSnapshot] at loaded
      split at loaded
      · cases loaded
      · split at loaded
        · cases loaded
        · cases loaded
          exact numbered

variable {query : List Scalar} {topK : Nat} {minScore : Option Score} {filter : Option (Chunk → Bool)}

/-- The score of an entry among the passing ones. A query of another length or with numbers that are not finite has no
score with any entry. -/
def passing (geometry : Geometry Scalar Score) (store : VectorStore Scalar Chunk) (query : List Scalar)
    (minScore : Option Score) (filter : Option (Chunk → Bool)) (entry : VectorEntry Scalar Chunk) : Option Score :=
  if query.length = store.dim ∧ query.all geometry.isFinite then hit geometry store query minScore filter entry else none

/-- The results are the best of the passing entries, each one once and in order. -/
structure Best (geometry : Geometry Scalar Score) (store : VectorStore Scalar Chunk) (query : List Scalar) (topK : Nat)
    (minScore : Option Score) (filter : Option (Chunk → Bool)) (results : List (SearchResult Score Chunk)) : Prop where
  belong : ∀ result ∈ results, ∃ entry ∈ store.entries, result.id = entry.id ∧ result.chunk = entry.chunk ∧
    passing geometry store query minScore filter entry = some result.score
  distinct : (results.map SearchResult.id).Nodup
  count : results.length = min topK (store.entries.filterMap (passing geometry store query minScore filter)).length
  sorted : results.Pairwise fun first second => second.score ≤ first.score
  best : ∀ entry ∈ store.entries, ∀ score, passing geometry store query minScore filter entry = some score →
    entry.id ∉ results.map SearchResult.id → ∀ result ∈ results, score ≤ result.score

theorem Best.none (few : topK = 0 ∨ ∀ entry ∈ store.entries, passing geometry store query minScore filter entry = none) :
    Best geometry store query topK minScore filter [] where
  belong := fun _ member => nomatch member
  distinct := nodup_nil
  count := by
    rcases few with rfl | few
    · rw [Nat.zero_min, length_nil]
    · rw [filterMap_eq_nil_iff.mpr few]
      exact (Nat.min_zero _).symm
  sorted := .nil
  best := fun _ _ _ _ _ _ member => nomatch member

omit [LinearOrder Score] in
/-- The entries with a score keep their order and have distinct ids if all entries do. -/
theorem candidates (score : VectorEntry Scalar Chunk → Option Score) (entries : List (VectorEntry Scalar Chunk)) :
    let listed := entries.filterMap fun entry => (score entry).map fun score => (score, entry.id)
    (listed.map Prod.snd).Sublist (entries.map VectorEntry.id) ∧ listed.length = (entries.filterMap score).length := by
  induction entries with
  | nil => exact ⟨.slnil, rfl⟩
  | cons entry entries ih =>
      simp only [filterMap_cons]
      cases score entry with
      | none => exact ⟨ih.1.cons _, ih.2⟩
      | some score => exact ⟨ih.1.cons_cons _, congrArg Nat.succ ih.2⟩

omit [LinearOrder Score] in
/-- The entries at the ids of scored entries are found. -/
theorem lookup_all {entries : List (VectorEntry Scalar Chunk)} {score : VectorEntry Scalar Chunk → Option Score}
    {kept : List (Score × Nat)} (each : ∀ best ∈ kept, ∃ entry, entries[best.2]? = some entry ∧ entry.id = best.2 ∧
      score entry = some best.1) :
    ∃ results : List (SearchResult Score Chunk),
      (kept.mapM fun best => entries[best.2]?.map fun entry => ⟨best.1, entry.chunk, best.2⟩) = some results ∧
      results.map (fun result => (result.score, result.id)) = kept ∧ ∀ result ∈ results, ∃ entry ∈ entries,
        result.id = entry.id ∧ result.chunk = entry.chunk ∧ score entry = some result.score := by
  induction kept with
  | nil => exact ⟨[], rfl, rfl, fun _ member => nomatch member⟩
  | cons best kept ih =>
      obtain ⟨⟨entry, found, same, known⟩, later⟩ := forall_mem_cons.mp each
      obtain ⟨results, ran, shape, belong⟩ := ih later
      refine ⟨⟨best.1, entry.chunk, best.2⟩ :: results, ?_, by rw [map_cons, shape],
        forall_mem_cons.mpr ⟨⟨entry, mem_of_getElem? found, same.symm, rfl, known⟩, belong⟩⟩
      rw [mapM_cons, found, ran]
      rfl

/-- In each run that loads only snapshots whose entries have their positions as ids, a search returns the best of the
passing entries. -/
theorem search_best (reached : Reached geometry (fun snapshot => Numbered snapshot.entries) store) (query : List Scalar)
    (topK : Nat) (minScore : Option Score) (filter : Option (Chunk → Bool)) :
    ∃ results, scored geometry store query topK minScore filter = some results ∧
      Best geometry store query topK minScore filter results := by
  rw [scored]
  split
  case isTrue nothing =>
    refine ⟨[], rfl, .none ?_⟩
    rcases nothing with empty | none | odd
    · rw [isEmpty_iff.mp empty]
      exact Or.inr fun _ member => nomatch member
    · exact Or.inl none
    · exact Or.inr fun _ _ => if_neg fun fits => odd fits.1
  case isFalse some_ =>
    split
    case isTrue wild =>
      exact ⟨[], rfl, .none (Or.inr fun _ _ => if_neg fun fits => by
        rw [all_eq_not_any_not, wild] at fits
        exact absurd fits.2 Bool.false_ne_true)⟩
    case isFalse finite =>
      have passes : passing geometry store query minScore filter = hit geometry store query minScore filter := by
        funext entry
        refine if_pos ⟨not_not.mp fun odd => some_ (Or.inr (Or.inr odd)), ?_⟩
        rw [all_eq_not_any_not, Bool.eq_false_iff.mpr finite]
        rfl
      have listed {best : Score × Nat} (member : best ∈ store.entries.filterMap fun entry =>
          (hit geometry store query minScore filter entry).map fun score => (score, entry.id)) :
          ∃ entry, store.entries[best.2]? = some entry ∧ entry.id = best.2 ∧
            passing geometry store query minScore filter entry = some best.1 := by
        obtain ⟨entry, inside, known⟩ := mem_filterMap.mp member
        obtain ⟨score, hits, rfl⟩ := Option.map_eq_some_iff.mp known
        obtain ⟨place, below, rfl⟩ := getElem_of_mem inside
        have here := congrArg (fun ids => ids[place]?) reached.numbered
        rw [getElem?_map, getElem?_range below, getElem?_eq_getElem below] at here
        refine ⟨_, ?_, rfl, by rw [passes, hits]⟩
        rw [Option.some.inj here]
        exact getElem?_eq_getElem below
      obtain ⟨sublist, size⟩ := candidates (hit geometry store query minScore filter) store.entries
      have ids := sublist.nodup (reached.numbered ▸ List.nodup_range)
      dsimp only
      have ranks : Ranks (fun a b : Score × Nat => decide (b.1 ≤ a.1)) (store.entries.filterMap fun entry =>
          (hit geometry store query minScore filter entry).map fun score => (score, entry.id)) :=
        ⟨fun _ _ _ _ _ _ first second => by simp only [decide_eq_true_eq] at *; exact le_trans second first,
          fun _ _ _ _ => by simp only [decide_eq_true_eq]; exact le_total _ _⟩
      obtain ⟨count, order, rest, perm, apart⟩ := geometry.sorting.take_sort ranks topK
      generalize (geometry.sorting.sort _ _).take topK = kept at count order perm apart ⊢
      obtain ⟨results, ran, shape, belong⟩ := lookup_all fun best member =>
        listed (perm.mem_iff.mpr (mem_append_left rest member))
      have shape' : results.map SearchResult.id = kept.map Prod.snd := by
        rw [← shape, map_map]
        rfl
      refine ⟨results, ran, belong, ?_, ?_, ?_, ?_⟩
      · rw [shape']
        have distinct := (perm.map Prod.snd).nodup_iff.mp ids
        rw [map_append] at distinct
        exact distinct.of_append_left
      · rw [passes, ← size, ← count, ← shape, length_map]
      · rw [← shape, pairwise_map] at order
        exact order.imp of_decide_eq_true
      · intro entry inside score known omitted result member
        rw [passes] at known
        have listed : (score, entry.id) ∈ kept ++ rest := perm.mem_iff.mp
          (mem_filterMap.mpr ⟨entry, inside, by rw [known]; rfl⟩)
        rcases mem_append.mp listed with here | left
        · rw [shape'] at omitted
          exact absurd (mem_map_of_mem here) omitted
        · refine of_decide_eq_true (apart (result.score, result.id) ?_ _ left)
          rw [← shape]
          exact mem_map_of_mem member

/-- Vectors of one number under their distance. -/
def line : Geometry Int Int where
  isFinite := fun _ => true
  l2Normalize := id
  score := fun _ a b => some (-(List.zipWith (fun x y => ((x - y).natAbs : Int)) a b).sum)
  sorting := StableSort.merging.toUnstableSort

theorem search_best_inserted : ∃ results, scored line ⟨[⟨0, [0], ()⟩], 1, .euclidean⟩ [0] 1 none none = some results ∧
    Best line ⟨[⟨0, [0], ()⟩], 1, .euclidean⟩ [0] 1 none none results :=
  search_best (@Reached.insert _ _ _ _ _ _ _ [0] _ _ (.new 1 .euclidean) rfl) [0] 1 none none

end Pictor.VectorSearch
