import Mathlib
import Pictor.Library.Outcome

namespace Pictor.Appending
open Outcome List

variable {Error Element Item Result Next : Type}

/-- A program extends an output, or fails. -/
abbrev Append (Error Element : Type) := StateT (List Element) (Except Error)

def writeAll (elements : List Element) : Append Error Element Unit := modify (· ++ elements)

/-- The program returns a result and appends some elements, whatever the output is. -/
def Writes (program : Append Error Element Result) (result : Result) (elements : List Element) : Prop :=
  ∀ out, program out = .ok (result, out ++ elements)

variable {program : Append Error Element Result} {next : Result → Append Error Element Next}
  {result : Result} {last : Next} {first second : List Element}

theorem writes_writeAll (elements : List Element) :
    Writes (writeAll elements : Append Error Element Unit) () elements := fun _ => rfl

theorem writes_pure (result : Result) : Writes (pure result : Append Error Element Result) result [] := by
  intro out
  rw [append_nil]
  rfl

theorem writes_lift {step : Except Error Result} (run : step = .ok result) :
    Writes (StateT.lift step : Append Error Element Result) result [] := by
  intro out
  rw [run, append_nil]
  rfl

namespace Writes

theorem bind (wrote : Writes program result first) (later : Writes (next result) last second) :
    Writes (program >>= next) last (first ++ second) := by
  intro out
  change (program out >>= fun step => next step.1 step.2) = _
  rw [wrote out, ← append_assoc]
  exact later _

/-- A program that writes first goes on behind what it wrote. -/
theorem bind_ok (wrote : Writes program result first) {out final : List Element} :
    (program >>= next) out = .ok (last, final) ↔ next result (out ++ first) = .ok (last, final) := by
  change (program out >>= fun step => next step.1 step.2) = _ ↔ _
  rw [wrote out]
  rfl

end Writes

/-- A loop that adds up the sizes of its items writes a piece for each item. -/
theorem writes_foldlM {step : Nat → Item → Append Error Element Nat} {size : Item → Nat}
    {shape : Item → List Element → Prop} (items : List Item)
    (wrote : ∀ pos, ∀ item ∈ items, ∃ piece, shape item piece ∧ piece.length = size item ∧
      Writes (step pos item) (pos + size item) piece) (pos : Nat) :
    ∃ pieces, List.Forall₂ shape items pieces ∧ pieces.flatten.length = (items.map size).sum ∧
      Writes (items.foldlM step pos) (pos + (items.map size).sum) pieces.flatten := by
  induction items generalizing pos with
  | nil => exact ⟨[], .nil, rfl, writes_pure pos⟩
  | cons item items ih =>
      obtain ⟨piece, first, full, front⟩ := wrote pos item mem_cons_self
      obtain ⟨pieces, rest, full', back⟩ :=
        ih (fun pos item member => wrote pos item (mem_cons_of_mem _ member)) (pos + size item)
      refine ⟨piece :: pieces, .cons first rest, ?_, ?_⟩
      · rw [flatten_cons, length_append, full, full', map_cons, sum_cons]
      · rw [foldlM_cons, map_cons, sum_cons, flatten_cons, ← Nat.add_assoc]
        exact front.bind back

/-- A loop over items writes their pieces one after another. -/
theorem writes_forM {step : Item → Append Error Element Unit} {piece : Item → List Element} (items : List Item)
    (wrote : ∀ item ∈ items, Writes (step item) () (piece item)) : Writes (items.forM step) () (items.flatMap piece) := by
  induction items with
  | nil => exact writes_pure ()
  | cons item items ih =>
      rw [forall_mem_cons] at wrote
      rw [flatMap_cons]
      exact wrote.1.bind (ih wrote.2)

/-- A loop that succeeds passes the check of each item. -/
theorem foldlM_passes {step : Result → Item → Append Error Element Result} {passes : Item → Prop}
    (checked : ∀ state item out last, step state item out = .ok last → passes item) {items : List Item}
    {state : Result} {out : List Element} {last : Result × List Element}
    (ended : items.foldlM step state out = .ok last) : ∀ item ∈ items, passes item := by
  induction items generalizing state out with
  | nil => exact fun _ none => (nomatch none)
  | cons item items ih =>
      rw [foldlM_cons] at ended
      obtain ⟨last, final⟩ := last
      obtain ⟨next, middle, first, later⟩ := state_bind_ok ended
      rw [forall_mem_cons]
      exact ⟨checked state item out _ first, ih later⟩

end Pictor.Appending
