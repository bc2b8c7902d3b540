import Mathlib

namespace Pictor.InsertAll
open List

variable {α β : Type} [DecidableEq α]

/-- A later entry replaces the value of its key. -/
def insertAll (entries : List (α × β)) (map : AList fun _ : α => β) : AList fun _ : α => β :=
  entries.foldl (fun map entry => map.insert entry.1 entry.2) map

theorem insertAll_cons (entry : α × β) (entries : List (α × β)) (map : AList fun _ : α => β) :
    insertAll (entry :: entries) map = insertAll entries (map.insert entry.1 entry.2) := rfl

theorem lookup_insertAll {entries : List (α × β)} (distinct : (entries.map Prod.fst).Nodup)
    (map : AList fun _ : α => β) (key : α) (value : β) : (insertAll entries map).lookup key = some value ↔
      (key, value) ∈ entries ∨ map.lookup key = some value ∧ key ∉ entries.map Prod.fst := by
  induction entries generalizing map with
  | nil => simp [insertAll]
  | cons entry entries ih =>
      rw [map_cons, nodup_cons] at distinct
      rw [insertAll_cons, ih distinct.2, mem_cons, map_cons, mem_cons, not_or]
      by_cases same : key = entry.1
      · subst same
        have fresh : (entry.1, value) ∉ entries := fun member =>
          distinct.1 (mem_map.mpr ⟨_, member, rfl⟩)
        rw [AList.lookup_insert]
        constructor
        · rintro (member | ⟨found, _⟩)
          · exact absurd member fresh
          · cases found
            exact Or.inl (Or.inl rfl)
        · rintro ((equal | member) | ⟨_, other, _⟩)
          · exact Or.inr ⟨congrArg some (congrArg Prod.snd equal).symm, distinct.1⟩
          · exact absurd member fresh
          · exact absurd rfl other
      · rw [AList.lookup_insert_ne same]
        have other : (key, value) ≠ entry := fun equal => same (congrArg Prod.fst equal)
        simp [same, other]

/-- The map of the entries alone has exactly these entries. -/
theorem lookup_insertAll_empty {entries : List (α × β)} (distinct : (entries.map Prod.fst).Nodup)
    (key : α) (value : β) : (insertAll entries ∅).lookup key = some value ↔ (key, value) ∈ entries := by
  rw [lookup_insertAll distinct, AList.lookup_empty]
  simp

/-- The last entry of a key remains. -/
theorem lookup_insertAll_last (entries : List (α × β)) (map : AList fun _ : α => β) (key : α) :
    (insertAll entries map).lookup key =
      (((entries.filter (·.1 = key)).getLast?).map Prod.snd).or (map.lookup key) := by
  induction entries generalizing map with
  | nil => rfl
  | cons entry entries ih =>
      rw [insertAll_cons, ih]
      by_cases same : entry.1 = key
      · rw [filter_cons_of_pos (by simpa using same), same, AList.lookup_insert]
        cases entries.filter (·.1 = key) with
        | nil => rfl
        | cons other others => rw [getLast?_cons_cons]; rfl
      · rw [filter_cons_of_neg (by simpa using same), AList.lookup_insert_ne (Ne.symm same)]

/-- A map of changed values looks up the changed values. -/
theorem lookup_insertAll_map {γ : Type} (change : β → γ) (entries : List (α × β))
    {map : AList fun _ : α => β} {changed : AList fun _ : α => γ}
    (start : ∀ key, changed.lookup key = (map.lookup key).map change) (key : α) :
    (insertAll (entries.map fun entry => (entry.1, change entry.2)) changed).lookup key =
      ((insertAll entries map).lookup key).map change := by
  induction entries generalizing map changed with
  | nil => exact start key
  | cons entry entries ih =>
      rw [map_cons, insertAll_cons, insertAll_cons]
      apply ih
      intro other
      by_cases same : other = entry.1
      · rw [same, AList.lookup_insert, AList.lookup_insert]
        rfl
      · rw [AList.lookup_insert_ne same, AList.lookup_insert_ne same, start]

theorem mem_insertAll (entries : List (α × β)) (map : AList fun _ : α => β) (key : α) :
    key ∈ insertAll entries map ↔ key ∈ entries.map Prod.fst ∨ key ∈ map := by
  induction entries generalizing map with
  | nil => simp [insertAll]
  | cons entry entries ih =>
      rw [insertAll_cons, ih, AList.mem_insert, map_cons, mem_cons]
      tauto

/-- The map of entries with distinct keys has all of them. -/
theorem length_insertAll_empty {entries : List (α × β)} (distinct : (entries.map Prod.fst).Nodup) :
    (insertAll entries ∅).entries.length = entries.length := by
  have keys : (insertAll entries ∅).keys.Perm (entries.map Prod.fst) := by
    rw [perm_ext_iff_of_nodup (AList.keys_nodup _) distinct]
    intro key
    have inserted := mem_insertAll entries ∅ key
    rwa [or_iff_left (AList.notMem_empty key)] at inserted
  have size := keys.length_eq
  rwa [AList.keys, List.keys, length_map, length_map] at size

/-- Insertion does not make a map larger than its entries together. -/
theorem weight_insertAll (weight : α → β → Nat) (entries : List (α × β)) (map : AList fun _ : α => β) :
    ((insertAll entries map).entries.map fun entry => weight entry.1 entry.2).sum ≤
      (entries.map fun entry => weight entry.1 entry.2).sum +
        (map.entries.map fun entry => weight entry.1 entry.2).sum := by
  induction entries generalizing map with
  | nil =>
      rw [map_nil, sum_nil, Nat.zero_add]
      exact Nat.le_refl _
  | cons entry entries ih =>
      have later := ih (map.insert entry.1 entry.2)
      have erased : ((List.kerase entry.1 map.entries).map fun entry => weight entry.1 entry.2).Sublist
          (map.entries.map fun entry => weight entry.1 entry.2) := (kerase_sublist _ _).map _
      have fewer := erased.sum_le_sum fun _ _ => Nat.zero_le _
      rw [AList.entries_insert, map_cons, sum_cons] at later
      dsimp only at later
      rw [insertAll_cons, map_cons, sum_cons]
      omega

section Permuted

variable {map : AList fun _ : α => β} {entries : List (α × β)}

variable (permuted : entries.Perm (map.entries.map fun entry => (entry.1, entry.2)))
include permuted

theorem mem_permuted (key : α) (value : β) : (key, value) ∈ entries ↔ map.lookup key = some value := by
  have found := @AList.mem_lookup_iff _ _ _ key value map
  rw [Option.mem_def] at found
  rw [permuted.mem_iff, found, mem_map]
  constructor
  · rintro ⟨⟨otherKey, otherValue⟩, member, equal⟩
    cases equal
    exact member
  · intro member
    exact ⟨_, member, rfl⟩

omit [DecidableEq α] in
theorem nodup_permuted : (entries.map Prod.fst).Nodup := by
  rw [(permuted.map Prod.fst).nodup_iff, map_map]
  exact map.nodupKeys

/-- The entries of a map build up the same map in any order. -/
theorem lookup_insertAll_permuted (key : α) : (insertAll entries ∅).lookup key = map.lookup key := by
  ext value
  rw [lookup_insertAll_empty (nodup_permuted permuted), mem_permuted permuted]

end Permuted

end Pictor.InsertAll
