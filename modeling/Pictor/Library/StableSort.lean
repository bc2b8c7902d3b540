import Mathlib.Data.List.Nodup
import Mathlib.Data.List.Perm.Basic

namespace Pictor
open List

/-- A comparison that orders the items. -/
structure Ranks {Item : Type} (le : Item → Item → Bool) (items : List Item) : Prop where
  trans : ∀ a ∈ items, ∀ b ∈ items, ∀ c ∈ items, le a b = true → le b c = true → le a c = true
  total : ∀ a ∈ items, ∀ b ∈ items, le a b = true ∨ le b a = true

/-- The sort keeps the items. Where the comparison orders them, the result is sorted and ties stay in their order. -/
structure StableSort where
  sort : ∀ {Item : Type}, (Item → Item → Bool) → List Item → List Item
  perm : ∀ {Item : Type} (le : Item → Item → Bool) (items : List Item), (sort le items).Perm items
  sorted : ∀ {Item : Type} {le : Item → Item → Bool} {items : List Item}, Ranks le items →
    (sort le items).Pairwise fun a b => le a b = true
  stable : ∀ {Item : Type} {le : Item → Item → Bool} {items : List Item} {a b : Item}, Ranks le items →
    le a b = true → [a, b].Sublist items → [a, b].Sublist (sort le items)

/-- A sort that leaves the order of ties open. -/
structure UnstableSort where
  sort : ∀ {Item : Type}, (Item → Item → Bool) → List Item → List Item
  perm : ∀ {Item : Type} (le : Item → Item → Bool) (items : List Item), (sort le items).Perm items
  sorted : ∀ {Item : Type} {le : Item → Item → Bool} {items : List Item}, Ranks le items →
    (sort le items).Pairwise fun a b => le a b = true

def StableSort.toUnstableSort (sorting : StableSort) : UnstableSort := ⟨sorting.sort, sorting.perm, sorting.sorted⟩

/-- The first items of a sorted list are in order, and none of the others comes before any of them. -/
theorem UnstableSort.take_sort (sorting : UnstableSort) {Item : Type} {le : Item → Item → Bool} {items : List Item}
    (ranks : Ranks le items) (count : Nat) : let kept := (sorting.sort le items).take count
    kept.length = min count items.length ∧ (kept.Pairwise fun a b => le a b = true) ∧
      ∃ rest, items.Perm (kept ++ rest) ∧ ∀ a ∈ kept, ∀ b ∈ rest, le a b = true := by
  have perm := sorting.perm le items
  have order := sorting.sorted ranks
  rw [← take_append_drop count (sorting.sort le items)] at order
  obtain ⟨first, _, apart⟩ := pairwise_append.mp order
  refine ⟨by rw [length_take, perm.length_eq], first, (sorting.sort le items).drop count, ?_, apart⟩
  rw [take_append_drop]
  exact perm.symm

namespace StableSort

variable {Item : Type} {le : Item → Item → Bool} {items : List Item} {a b : Item} (sorting : StableSort)

theorem mem_sort : a ∈ sorting.sort le items ↔ a ∈ items := (sorting.perm le items).mem_iff

@[simp] theorem sort_singleton (le : Item → Item → Bool) (a : Item) : sorting.sort le [a] = [a] :=
  perm_singleton.mp (sorting.perm le [a])

/-- The first one of the greatest items comes first. -/
theorem sort_first (ranks : Ranks le items) (distinct : items.Nodup) {front back : List Item}
    (split : items = front ++ a :: back) (greatest : ∀ b ∈ items, le a b = true)
    (before : ∀ b ∈ front, le b a = false) : ∃ rest, sorting.sort le items = a :: rest := by
  have member : a ∈ items := split ▸ mem_append_right _ mem_cons_self
  have listed := (@mem_sort _ le _ _ sorting).mpr member
  have once : (sorting.sort le items).Nodup := (sorting.perm le items).nodup_iff.mpr distinct
  have order := sorting.sorted ranks
  cases whole : sorting.sort le items with
  | nil =>
      rw [whole] at listed
      cases listed
  | cons first rest =>
      rw [whole] at listed once order
      rcases mem_cons.mp listed with rfl | later
      · exact ⟨rest, rfl⟩
      · exfalso
        have lower := rel_of_pairwise_cons order later
        have inside : first ∈ items := (@mem_sort _ le _ _ sorting).mp (whole ▸ mem_cons_self)
        have apart := (nodup_cons.mp once).1
        rw [split] at inside
        rcases mem_append.mp inside with earlier | same
        · rw [before first earlier] at lower
          cases lower
        · rcases mem_cons.mp same with rfl | behind
          · exact apart later
          · have pair : [a, first].Sublist items := by
              rw [split]
              exact (singleton_sublist.mpr behind).cons_cons a |>.trans (sublist_append_right front _)
            have kept := sorting.stable ranks (greatest first (split ▸ inside)) pair
            rw [whole] at kept
            cases kept with
            | cons _ tail => exact apart (tail.subset (mem_cons_of_mem _ mem_cons_self))
            | cons_cons _ tail => exact apart later

/-- Two items trade places only if the second one is strictly before the first one. -/
theorem sort_pair (reflexive : ∀ c ∈ [a, b], le c c = true) (total : le a b = true ∨ le b a = true) (apart : a ≠ b) :
    sorting.sort le [a, b] = if le a b = true then [a, b] else [b, a] := by
  have ranks : Ranks le [a, b] := by
    constructor
    · intro x first y second z third
      simp only [mem_cons, not_mem_nil, or_false] at first second third reflexive
      rcases first with rfl | rfl <;> rcases second with rfl | rfl <;> rcases third with rfl | rfl <;>
        intro lower upper <;> first | assumption | exact reflexive _ (Or.inl rfl) | exact reflexive _ (Or.inr rfl)
    · intro x first y second
      simp only [mem_cons, not_mem_nil, or_false] at first second reflexive
      rcases first with rfl | rfl <;> rcases second with rfl | rfl
      · exact Or.inl (reflexive _ (Or.inl rfl))
      · exact total
      · exact total.symm
      · exact Or.inl (reflexive _ (Or.inr rfl))
  have distinct : [a, b].Nodup := by simpa using apart
  have size := (sorting.perm le [a, b]).length_eq
  split
  case isTrue lower =>
    exact ((sorting.stable ranks lower (List.Sublist.refl _)).eq_of_length size.symm).symm
  case isFalse above =>
    have upper := total.resolve_left above
    obtain ⟨rest, whole⟩ := @sort_first _ le [a, b] b sorting ranks distinct [a] [] rfl
      (by simp only [mem_cons, not_mem_nil, or_false]
          rintro c (rfl | rfl)
          · exact upper
          · exact reflexive _ (mem_cons_of_mem _ mem_cons_self))
      (by simpa using above)
    have permuted := sorting.perm le [a, b]
    rw [whole] at permuted
    have left := (permuted.trans (.swap b a [])).cons_inv
    rw [whole, perm_singleton.mp left]

/-- The items of a kind that comes first are the first ones of this kind. -/
theorem filter_take {items : List Item} {kind : Item → Bool}
    (sorted : items.Pairwise fun a b => kind b = true → kind a = true) (k : Nat) :
    (items.take k).filter kind = (items.filter kind).take k := by
  induction items generalizing k with
  | nil => simp
  | cons first rest ih =>
      obtain ⟨before, later⟩ := pairwise_cons.mp sorted
      cases k with
      | zero => simp
      | succ k =>
          rw [take_succ_cons]
          cases here : kind first with
          | true => rw [filter_cons_of_pos here, filter_cons_of_pos here, take_succ_cons, ih later]
          | false =>
              have none : rest.filter kind = [] := by
                rw [filter_eq_nil_iff]
                intro other member good
                rw [before other member good] at here
                cases here
              rw [filter_cons_of_neg (by simp [here]), filter_cons_of_neg (by simp [here]), ih later, none,
                take_nil, take_nil]

section Kind

variable {kind : Item → Bool} (ranks : Ranks le items)
  (upward : ∀ a ∈ items, ∀ b ∈ items, le a b = true → kind b = true → kind a = true)

include ranks upward

theorem filter_sort_take (k : Nat) :
    ((sorting.sort le items).take k).filter kind = ((sorting.sort le items).filter kind).take k := by
  apply filter_take
  apply (sorting.sorted ranks).imp_of_mem
  intro a b first second lower good
  exact upward a (sorting.mem_sort.mp first) b (sorting.mem_sort.mp second) lower good

/-- As many items of the kind are taken as there are. -/
theorem length_filter_sort_take (k : Nat) :
    (((sorting.sort le items).take k).filter kind).length = min k (items.filter kind).length := by
  rw [sorting.filter_sort_take ranks upward, length_take, ((sorting.perm le items).filter kind).length_eq]

theorem filter_sort_take_perm {k : Nat} (few : (items.filter kind).length ≤ k) :
    (((sorting.sort le items).take k).filter kind).Perm (items.filter kind) := by
  have sorted := (sorting.perm le items).filter kind
  rw [sorting.filter_sort_take ranks upward, take_of_length_le (by rw [sorted.length_eq]; exact few)]
  exact sorted

end Kind

/-- The merge sort is such a sort. -/
def merging : StableSort where
  sort le items := (items.attach.mergeSort fun a b => le a.1 b.1).map Subtype.val
  perm le items := by
    have permuted := (mergeSort_perm items.attach fun a b => le a.1 b.1).map Subtype.val
    rwa [attach_map_subtype_val] at permuted
  sorted {Item le items} ranks := by
    rw [pairwise_map]
    exact pairwise_mergeSort (fun a b c => ranks.trans a.1 a.2 b.1 b.2 c.1 c.2)
      (fun a b => by simpa using ranks.total a.1 a.2 b.1 b.2) items.attach
  stable {Item le items a b} ranks lower pair := by
    rw [← attach_map_subtype_val items, sublist_map_iff] at pair
    obtain ⟨inside, kept, same⟩ := pair
    have size := congrArg List.length same
    rw [length_map] at size
    obtain ⟨first, second, rfl⟩ := length_eq_two.mp size.symm
    obtain ⟨rfl, rest⟩ := List.cons.inj same
    obtain ⟨rfl, _⟩ := List.cons.inj rest
    have sorted : [first, second].Sublist (items.attach.mergeSort fun a b => le a.1 b.1) :=
      pair_sublist_mergeSort (fun a b c => ranks.trans a.1 a.2 b.1 b.2 c.1 c.2)
        (fun a b => by simpa using ranks.total a.1 a.2 b.1 b.2) lower kept
    exact sorted.map Subtype.val

end StableSort

end Pictor
