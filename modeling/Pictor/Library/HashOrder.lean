import Mathlib.Data.Finset.Card
import Mathlib.Data.List.Sort

namespace Pictor
open List

/-- A hashed set gives its members in an order that may differ at every moment of a run. -/
structure HashOrder (α : Type) where
  iterate : Nat → Finset α → List α
  nodup : ∀ moment items, (iterate moment items).Nodup
  mem : ∀ moment items a, a ∈ iterate moment items ↔ a ∈ items

namespace HashOrder

variable {α : Type}

attribute [simp] HashOrder.mem

/-- An iteration visits as many members as the set holds. -/
theorem iterate_length (order : HashOrder α) (moment : Nat) (items : Finset α) :
    (order.iterate moment items).length = items.card := by
  classical
  have same : (order.iterate moment items).toFinset = items := by
    ext a
    simp
  rw [← same, toFinset_card_of_nodup (order.nodup moment items), same]

/-- Two iterations of a set visit the same members. -/
theorem iterate_perm (order other : HashOrder α) (moment instant : Nat) (items : Finset α) :
    (order.iterate moment items).Perm (other.iterate instant items) := by
  rw [perm_ext_iff_of_nodup (order.nodup moment items) (other.nodup instant items)]
  intro a
  rw [order.mem, other.mem]

/-- An empty set gives no member. -/
@[simp] theorem iterate_empty (order : HashOrder α) (moment : Nat) : order.iterate moment ∅ = [] := by
  apply eq_nil_iff_forall_not_mem.mpr
  simp

/-- A set with one member has one iteration order. -/
@[simp] theorem iterate_singleton (order : HashOrder α) (moment : Nat) (a : α) : order.iterate moment {a} = [a] := by
  have one : (order.iterate moment {a}).length = 1 := by
    rw [iterate_length, Finset.card_singleton]
  obtain ⟨b, only⟩ := length_eq_one_iff.mp one
  have here : b ∈ order.iterate moment {a} := by simp [only]
  rw [only, Finset.mem_singleton.mp ((order.mem moment {a} b).mp here)]

/-- A partial map with one defined argument in the set gives one result. -/
theorem filterMap_iterate_single {β : Type} (order : HashOrder α) (moment : Nat) (items : Finset α)
    (f : α → Option β) (a : α) (b : β) (inside : a ∈ items) (value : f a = some b)
    (others : ∀ c ∈ items, c ≠ a → f c = none) : (order.iterate moment items).filterMap f = [b] := by
  have listed : a ∈ order.iterate moment items := (order.mem moment items a).mpr inside
  obtain ⟨before, after, split⟩ := append_of_mem listed
  have distinct := order.nodup moment items
  rw [split, nodup_append, nodup_cons] at distinct
  have nowhere : ∀ c ∈ order.iterate moment items, c ≠ a → f c = none :=
    fun c member => others c ((order.mem moment items c).mp member)
  rw [split] at nowhere ⊢
  have first : before.filterMap f = [] := filterMap_eq_nil_iff.mpr fun c member =>
    nowhere c (mem_append_left _ member) (distinct.2.2 c member a mem_cons_self)
  have last : after.filterMap f = [] := filterMap_eq_nil_iff.mpr fun c member =>
    nowhere c (mem_append_right _ (mem_cons_of_mem _ member)) fun same =>
      distinct.2.1.1 (same ▸ member)
  rw [filterMap_append, first, filterMap_cons_some value, last, nil_append]

/-- Some order of the members, the same at every moment. -/
noncomputable def listed : HashOrder α where
  iterate _ items := items.toList
  nodup _ items := items.nodup_toList
  mem _ _ _ := Finset.mem_toList

/-- Insertion sort by an injective key gives one order that does not depend on the moment. -/
def sortedBy (key : α → Nat) (injective : Function.Injective key) : HashOrder α :=
  let le : α → α → Prop := fun first second => key first ≤ key second
  haveI : DecidableRel le := fun first second => inferInstanceAs (Decidable (_ ≤ _))
  haveI : IsTrans α le := ⟨fun _ _ _ => Nat.le_trans⟩
  haveI : Std.Total le := ⟨fun first second => Nat.le_total (key first) (key second)⟩
  haveI : Std.Antisymm le := ⟨fun _ _ lower upper => injective (Nat.le_antisymm lower upper)⟩
  { iterate := fun _ items => Quot.liftOn items.val (List.insertionSort le) fun first second same =>
      List.Perm.eq_of_pairwise'
        (pairwise_insertionSort le first) (pairwise_insertionSort le second)
        ((perm_insertionSort le first).trans
          (same.trans (perm_insertionSort le second).symm))
    nodup := fun _ items => by
      obtain ⟨items, distinct⟩ := items
      induction items using Quot.inductionOn with
      | _ items => exact (perm_insertionSort le items).nodup_iff.mpr distinct
    mem := fun _ items a => by
      obtain ⟨items, distinct⟩ := items
      induction items using Quot.inductionOn with
      | _ items => exact (perm_insertionSort le items).mem_iff }

/-- The rising iteration order of bytes. -/
def risingBytes : HashOrder UInt8 := sortedBy UInt8.toNat fun _ _ same => UInt8.toNat_inj.mp same

/-- An ordered set of numbers gives its members from the least to the greatest. -/
def rising (items : Finset Nat) : List Nat := (sortedBy id Function.injective_id).iterate 0 items

@[simp] theorem mem_rising (items : Finset Nat) (a : Nat) : a ∈ rising items ↔ a ∈ items :=
  HashOrder.mem _ 0 items a

@[simp] theorem length_rising (items : Finset Nat) : (rising items).length = items.card :=
  iterate_length _ 0 items

end HashOrder

end Pictor
