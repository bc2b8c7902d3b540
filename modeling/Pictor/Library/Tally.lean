import Mathlib

namespace Pictor.Tally
open List

variable {α : Type} [DecidableEq α] {entries others : List (α × Nat)}

/-- Each entry adds its weight to the count of its key. -/
def tally (entries : List (α × Nat)) (counts : AList fun _ : α => Nat) : AList fun _ : α => Nat :=
  entries.foldl (fun counts entry => counts.insert entry.1 ((counts.lookup entry.1).getD 0 + entry.2)) counts

theorem tally_cons (entry : α × Nat) (entries : List (α × Nat)) (counts : AList fun _ : α => Nat) :
    tally (entry :: entries) counts =
      tally entries (counts.insert entry.1 ((counts.lookup entry.1).getD 0 + entry.2)) := rfl

/-- The weights of a key in the entries. -/
def total (key : α) (entries : List (α × Nat)) : Nat := ((entries.filter (·.1 = key)).map Prod.snd).sum

theorem total_perm (permuted : entries.Perm others) (key : α) : total key entries = total key others :=
  ((permuted.filter _).map Prod.snd).sum_eq

/-- A key that occurs has its earlier count and its weights. -/
theorem lookup_tally (entries : List (α × Nat)) (counts : AList fun _ : α => Nat) (key : α) :
    (tally entries counts).lookup key = if key ∈ entries.map Prod.fst then
      some ((counts.lookup key).getD 0 + total key entries) else counts.lookup key := by
  induction entries generalizing counts with
  | nil => rfl
  | cons entry entries ih =>
      rw [tally_cons, ih, map_cons]
      by_cases same : key = entry.1
      · subst same
        have first : total entry.1 (entry :: entries) = entry.2 + total entry.1 entries := by
          simp [total]
        rw [if_pos mem_cons_self, AList.lookup_insert, first, Option.getD_some, Nat.add_assoc]
        by_cases again : entry.1 ∈ entries.map Prod.fst
        · rw [if_pos again]
        · have none : total entry.1 entries = 0 := by
            have empty : entries.filter (·.1 = entry.1) = [] := by
              rw [filter_eq_nil_iff]
              intro other member equal
              exact again (mem_map.mpr ⟨other, member, by simpa using equal⟩)
            rw [total, empty]
            rfl
          rw [if_neg again, none, Nat.add_zero]
      · have later : total key (entry :: entries) = total key entries := by
          rw [total, filter_cons_of_neg (by simpa using Ne.symm same), total]
        simp only [mem_cons, same, false_or, AList.lookup_insert_ne same, later]

/-- The counts do not depend on the order of the entries. -/
theorem lookup_tally_perm (permuted : entries.Perm others) (key : α) :
    (tally entries ∅).lookup key = (tally others ∅).lookup key := by
  rw [lookup_tally, lookup_tally, total_perm permuted]
  simp only [(permuted.map Prod.fst).mem_iff]

end Pictor.Tally

namespace Pictor.Positions
open List

variable {Entry : Type} (select : Entry → Bool)

theorem insertIdx_findIdx (entries : List Entry) (entry : Entry) : entries.insertIdx (entries.findIdx select) entry =
      entries.takeWhile (fun other => !select other) ++ entry :: entries.dropWhile fun other => !select other := by
  induction entries with
  | nil => rfl
  | cons first rest ih =>
      rw [findIdx_cons, takeWhile_cons, dropWhile_cons]
      cases selected : select first with
      | true => rfl
      | false =>
          change first :: rest.insertIdx (rest.findIdx select) entry = _
          rw [ih]
          rfl

theorem insertIdx_findIdx_perm (entries : List Entry) (entry : Entry) :
    (entries.insertIdx (entries.findIdx select) entry).Perm (entry :: entries) := by
  rw [insertIdx_findIdx]
  refine perm_middle.trans (List.Perm.cons entry ?_)
  rw [takeWhile_append_dropWhile]

/-- The insertion keeps an order in which the entry follows what it does not select and precedes what
it selects, if the selected entries are at the end. -/
theorem insertIdx_findIdx_pairwise {before : Entry → Entry → Prop} {entries : List Entry} {entry : Entry}
    (ordered : entries.Pairwise before) (follows : ∀ other ∈ entries, select other = false → before other entry)
    (precedes : ∀ other ∈ entries, select other = true → before entry other)
    (final : ∀ first second, before first second → select first = true → select second = true) :
    (entries.insertIdx (entries.findIdx select) entry).Pairwise before := by
  induction entries with
  | nil => exact pairwise_singleton _ _
  | cons first rest ih =>
      obtain ⟨least, later⟩ := pairwise_cons.mp ordered
      rw [findIdx_cons]
      cases selected : select first with
      | true =>
          apply pairwise_cons.mpr
          refine ⟨fun other member => ?_, ordered⟩
          rcases mem_cons.mp member with rfl | member'
          · exact precedes other member selected
          · exact precedes other member (final first other (least other member') selected)
      | false =>
          change (first :: rest.insertIdx (rest.findIdx select) entry).Pairwise before
          apply pairwise_cons.mpr
          constructor
          · intro other member
            rcases mem_cons.mp ((insertIdx_findIdx_perm select rest entry).mem_iff.mp member) with
              rfl | member'
            · exact follows first mem_cons_self selected
            · exact least other member'
          · exact ih later (fun other member => follows other (mem_cons_of_mem _ member))
              fun other member => precedes other (mem_cons_of_mem _ member)

/-- The positions of the selected entries, from the first to the last. -/
def positions (entries : List Entry) : List Nat :=
  (entries.zipIdx.filter fun entry => select entry.1).map Prod.snd

/-- The entry at a position moves to the end of the second list. -/
def pull (lists : List Entry × List Entry) (pos : Nat) : List Entry × List Entry :=
  match lists.1[pos]? with
  | none => lists
  | some entry => (lists.1.eraseIdx pos, lists.2 ++ [entry])

theorem positions_concat (entries : List Entry) (last : Entry) : positions select (entries ++ [last]) =
      positions select entries ++ if select last then [entries.length] else [] := by
  rw [positions, zipIdx_append, filter_append, map_append, positions]
  congr 1
  cases selected : select last <;> simp [selected]

/-- The removal of the selected positions from the last to the first. -/
theorem foldl_pull (entries tail done : List Entry) :
    (positions select entries).reverse.foldl pull (entries ++ tail, done) =
      (entries.filter (fun entry => !select entry) ++ tail, done ++ (entries.filter select).reverse) := by
  induction entries using List.reverseRecOn generalizing tail done with
  | nil => simp [positions]
  | append_singleton entries last ih =>
      rw [positions_concat, append_assoc, filter_append, filter_append]
      cases selected : select last with
      | false =>
          rw [if_neg Bool.false_ne_true, append_nil, ih]
          simp [selected]
      | true =>
          have erased : (entries ++ last :: tail).eraseIdx entries.length = entries ++ tail := by
            rw [eraseIdx_append_of_length_le (Nat.le_refl _), Nat.sub_self, eraseIdx_cons_zero]
          have first : pull (entries ++ last :: tail, done) entries.length =
              (entries ++ tail, done ++ [last]) := by
            simp [pull, erased]
          rw [if_pos rfl, reverse_append, reverse_singleton, singleton_append,
            singleton_append, foldl_cons, first, ih]
          simp [selected]

end Pictor.Positions
