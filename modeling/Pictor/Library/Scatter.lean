import Mathlib.Data.List.Nodup
import Mathlib.Data.List.Perm.Subperm
import Pictor.Library.Tiling

namespace Pictor.Scatter
open Tiling List

variable {Failure Element : Type} {failure : Failure} {writes : List (Nat × Element)} {places : List Nat}
  {buffer elements : List Element}

/-- The buffer after elements are written at their places. -/
def scatter (writes : List (Nat × Element)) (buffer : List Element) : List Element :=
  writes.foldl (fun buffer write => buffer.set write.1 write.2) buffer

/-- The writes fail at a place outside the buffer. -/
def writeAll (failure : Failure) (writes : List (Nat × Element)) (buffer : List Element) :
    Except Failure (List Element) :=
  writes.foldlM (fun buffer write => setAt failure write.1 write.2 buffer) buffer

@[simp] theorem length_scatter (writes : List (Nat × Element)) (buffer : List Element) :
    (scatter writes buffer).length = buffer.length := by
  induction writes generalizing buffer with
  | nil => rfl
  | cons write writes ih =>
      change (scatter writes (buffer.set write.1 write.2)).length = _
      rw [ih, length_set]

theorem writeAll_inside (inside : ∀ write ∈ writes, write.1 < buffer.length) :
    writeAll failure writes buffer = .ok (scatter writes buffer) := by
  induction writes generalizing buffer with
  | nil => rfl
  | cons write writes ih =>
      have here := inside write mem_cons_self
      have rest : ∀ other ∈ writes, other.1 < (buffer.set write.1 write.2).length := by
        intro other member
        rw [length_set]
        exact inside other (mem_cons_of_mem _ member)
      rw [writeAll, foldlM_cons, setAt_inside here]
      exact ih rest

/-- A place without a write is unchanged. -/
theorem getElem?_scatter_apart {place : Nat} (apart : place ∉ writes.map Prod.fst) :
    (scatter writes buffer)[place]? = buffer[place]? := by
  induction writes generalizing buffer with
  | nil => rfl
  | cons write writes ih =>
      rw [map_cons, mem_cons, not_or] at apart
      change (scatter writes (buffer.set write.1 write.2))[place]? = _
      rw [ih apart.2, getElem?_set_ne (Ne.symm apart.1)]

/-- Every write is read back if no place has two. -/
theorem getElem?_scatter (once : (writes.map Prod.fst).Nodup) {place : Nat} {element : Element}
    (member : (place, element) ∈ writes) (inside : place < buffer.length) :
    (scatter writes buffer)[place]? = some element := by
  induction writes generalizing buffer with
  | nil => exact absurd member not_mem_nil
  | cons write writes ih =>
      rw [map_cons, nodup_cons] at once
      change (scatter writes (buffer.set write.1 write.2))[place]? = _
      rcases mem_cons.mp member with rfl | later
      · rw [getElem?_scatter_apart once.1, getElem?_set_self inside]
      · exact ih once.2 later (by rwa [length_set])

/-- The elements at places, in their order. -/
def gather (places : List Nat) (elements : List Element) : List Element := places.filterMap (elements[·]?)

theorem gather_range (elements : List Element) : gather (List.range elements.length) elements = elements := by
  induction elements with
  | nil => rfl
  | cons element elements ih =>
      rw [gather, length_cons, range_succ_eq_map, filterMap_cons_some getElem?_cons_zero,
        filterMap_map]
      exact congrArg (element :: ·) ih

/-- A reordering of all places permutes the elements. -/
theorem gather_perm (all : places.Perm (List.range elements.length)) : (gather places elements).Perm elements := by
  have same := all.filterMap (elements[·]?)
  rwa [← gather, ← gather, gather_range] at same

theorem gather_eq_map (inside : ∀ place ∈ places, place < elements.length) :
    (gather places elements).map some = places.map (elements[·]?) := by
  induction places with
  | nil => rfl
  | cons place places ih =>
      have here := getElem?_eq_getElem (inside place mem_cons_self)
      have rest := ih fun other member => inside other (mem_cons_of_mem _ member)
      rw [gather, filterMap_cons_some here, map_cons, map_cons, here]
      exact congrArg (_ :: ·) rest

theorem getElem?_gather (inside : ∀ place ∈ places, place < elements.length) (k : Nat) :
    (gather places elements)[k]? = places[k]?.bind (elements[·]?) := by
  have same := congrArg (·[k]?) (gather_eq_map inside)
  simp only [getElem?_map] at same
  cases here : places[k]? with
  | none =>
      rw [here, Option.map_none, Option.map_eq_none_iff] at same
      exact same
  | some place =>
      rw [here, Option.map_some, Option.map_eq_some_iff] at same
      obtain ⟨element, found, equal⟩ := same
      rw [found, equal]
      rfl

section Reordering

variable (all : places.Perm (List.range buffer.length)) (size : elements.length = buffer.length)

include all

theorem reordered_inside {place : Nat} (member : place ∈ places) : place < buffer.length :=
  mem_range.mp (all.mem_iff.mp member)

include size

theorem zip_places : (places.zip elements).map Prod.fst = places :=
  map_fst_zip (by rw [all.length_eq, length_range, size])

/-- The elements that are written in an order are read back in it. -/
theorem gather_scatter : gather places (scatter (places.zip elements) buffer) = elements := by
  have once : ((places.zip elements).map Prod.fst).Nodup := by
    rw [zip_places all size]
    exact all.nodup_iff.mpr nodup_range
  have inside : ∀ place ∈ places, place < (scatter (places.zip elements) buffer).length := fun place member => by
    rw [length_scatter]
    exact reordered_inside all member
  have equal : places.length = elements.length := by rw [all.length_eq, length_range, size]
  ext1 k
  rw [getElem?_gather inside]
  by_cases within : k < places.length
  · rw [getElem?_eq_getElem within, getElem?_eq_getElem (equal ▸ within), Option.bind_some]
    apply getElem?_scatter once
    · rw [← getElem_zip (h := by rw [length_zip, equal, Nat.min_self]; exact equal ▸ within)]
      exact getElem_mem _
    · exact reordered_inside all (getElem_mem within)
  · rw [getElem?_eq_none (Nat.le_of_not_lt within),
      getElem?_eq_none (equal ▸ Nat.le_of_not_lt within), Option.bind_none]

end Reordering

/-- The elements that are read in an order are written back to their places. -/
theorem scatter_gather (all : places.Perm (List.range elements.length)) (size : buffer.length = elements.length) :
    scatter (places.zip (gather places elements)) buffer = elements := by
  have all' : places.Perm (List.range buffer.length) := size ▸ all
  have equal : (gather places elements).length = buffer.length := by
    rw [(gather_perm all).length_eq, size]
  have once : ((places.zip (gather places elements)).map Prod.fst).Nodup := by
    rw [zip_places all' equal]
    exact all.nodup_iff.mpr nodup_range
  have inside : ∀ place ∈ places, place < elements.length := fun place member => reordered_inside all member
  ext1 place
  by_cases within : place < elements.length
  · obtain ⟨k, bound, rfl⟩ := mem_iff_getElem.mp (all.mem_iff.mpr (mem_range.mpr within))
    rw [getElem?_eq_getElem within]
    apply getElem?_scatter once
    · have there := getElem?_gather inside k
      rw [getElem?_eq_getElem bound, Option.bind_some, getElem?_eq_getElem within] at there
      obtain ⟨bound', found⟩ := List.getElem?_eq_some_iff.mp there
      rw [← found, ← getElem_zip (h := by rw [length_zip]; exact Nat.lt_min.mpr ⟨bound, bound'⟩)]
      exact getElem_mem _
    · rwa [size]
  · rw [getElem?_eq_none (by rw [length_scatter, size]; exact Nat.le_of_not_lt within),
      getElem?_eq_none (Nat.le_of_not_lt within)]

/-- Distinct places are all places if there are enough of them. -/
theorem all_places {count : Nat} (covers : ∀ place < count, place ∈ places) (size : places.length = count) :
    places.Perm (List.range count) := by
  have inside : List.range count ⊆ places := fun place member => covers place (mem_range.mp member)
  have below := nodup_range.subperm inside
  exact (below.perm_of_length_le (by rw [size, length_range])).symm

end Pictor.Scatter
