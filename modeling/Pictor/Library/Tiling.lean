import Mathlib.Order.Interval.Set.LinearOrder
import Pictor.Library.Slice

namespace Pictor.Tiling
open Slice List

variable {Failure Element State : Type} (failure : Failure)

/-- The elements of a range, or a failure for a range outside the list. -/
def part (elements : List Element) (start stop : Nat) : Except Failure (List Element) :=
  if start ≤ stop ∧ stop ≤ elements.length then .ok (slice elements start (stop - start)) else .error failure

/-- A program runs on a range of a buffer in place. -/
def onPart (start stop : Nat) (work : List Element → Except Failure (List Element)) (buffer : List Element) :
    Except Failure (List Element) := do
  let inner ← part failure buffer start stop
  let inner ← work inner
  return copyFromSlice buffer start inner

/-- A copy over a whole range fails if the lengths differ. -/
def copyOver (source : List Element) (buffer : List Element) : Except Failure (List Element) :=
  if source.length = buffer.length then .ok source else .error failure

/-- An element of a buffer is written in place. -/
def setAt (index : Nat) (element : Element) (buffer : List Element) : Except Failure (List Element) :=
  if index < buffer.length then .ok (buffer.set index element) else .error failure

/-- An element of a list, or a failure for an index outside the list. -/
def getAt (index : Nat) (elements : List Element) : Except Failure Element :=
  match elements[index]? with
  | none => .error failure
  | some element => .ok element

/-- The tiles of a range up to its end, where only the last one can be shorter than the width. -/
def tiles (width : Nat) (positive : 0 < width) (stop : Nat) (body : Nat → Nat → State → Except Failure State)
    (start : Nat) (state : State) : Except Failure State :=
  if start < stop then do
    let state ← body start (min (stop - start) width) state
    tiles width positive stop body (start + min (stop - start) width) state
  else
    .ok state
termination_by stop - start

/-- The chunks of a buffer, each changed by a program of its own, where chunks of no elements are a failure. -/
def chunks (width : Nat) (work : Nat → List Element → Except Failure (List Element)) (buffer : List Element) :
    Except Failure (List Element) := do
  if width = 0 then throw failure
  let done ← (List.range ((buffer.length + width - 1) / width)).mapM fun index =>
    work index (slice buffer (index * width) width)
  return done.flatten

variable {failure} in
theorem part_inside {elements : List Element} {start stop : Nat} (ordered : start ≤ stop)
    (inside : stop ≤ elements.length) : part failure elements start stop = .ok (slice elements start (stop - start)) :=
  if_pos ⟨ordered, inside⟩

variable {failure} in
theorem setAt_inside {buffer : List Element} (inside : index < buffer.length) (element : Element) :
    setAt failure index element buffer = .ok (buffer.set index element) := if_pos inside

section Paint

open Classical

/-- The buffer after the elements of a region are written. -/
noncomputable def paint (region : Set Nat) (value : Nat → Element) (buffer : List Element) : List Element :=
  buffer.mapIdx fun index old => if index ∈ region then value index else old

variable {region first second : Set Nat} {value : Nat → Element} {buffer : List Element}

@[simp] theorem length_paint : (paint region value buffer).length = buffer.length := length_mapIdx

theorem getElem?_paint (index : Nat) : (paint region value buffer)[index]? =
      if index < buffer.length ∧ index ∈ region then some (value index) else buffer[index]? := by
  rw [paint, getElem?_mapIdx]
  by_cases inside : index < buffer.length
  · rw [getElem?_eq_getElem inside, Option.map_some]
    by_cases member : index ∈ region
    · rw [if_pos member, if_pos ⟨inside, member⟩]
    · rw [if_neg member, if_neg fun both => member both.2]
  · rw [getElem?_eq_none (Nat.le_of_not_lt inside), if_neg fun both => inside both.1]
    rfl

/-- A region can be written in two parts. -/
theorem paint_paint : paint second value (paint first value buffer) = paint (first ∪ second) value buffer := by
  ext1 index
  simp only [getElem?_paint, length_paint, Set.mem_union]
  by_cases inside : index < buffer.length <;> by_cases before : index ∈ first <;>
    by_cases after : index ∈ second <;> simp [inside, before, after]

/-- Only the indices and the values inside the buffer count. -/
theorem paint_congr {value' : Nat → Element} (regions : ∀ index < buffer.length, index ∈ first ↔ index ∈ second)
    (values : ∀ index < buffer.length, index ∈ second → value index = value' index) :
    paint first value buffer = paint second value' buffer := by
  ext1 index
  rw [getElem?_paint, getElem?_paint]
  by_cases inside : index < buffer.length
  · by_cases member : index ∈ second
    · rw [if_pos ⟨inside, (regions index inside).mpr member⟩, if_pos ⟨inside, member⟩, values index inside member]
    · rw [if_neg fun both => member ((regions index inside).mp both.2), if_neg fun both => member both.2]
  · rw [if_neg fun both => inside both.1, if_neg fun both => inside both.1]

theorem paint_empty : paint ∅ value buffer = buffer := by
  ext1 index
  rw [getElem?_paint, if_neg fun both => both.2]

/-- The rest of the buffer behind the region is unchanged. -/
theorem drop_paint {count : Nat} (below : ∀ index ∈ region, index < count) :
    (paint region value buffer).drop count = buffer.drop count := by
  ext1 index
  rw [getElem?_drop, getElem?_drop, getElem?_paint, if_neg]
  intro both
  have := below _ both.2
  omega

theorem slice_paint (offset length : Nat) : slice (paint region value buffer) offset length =
      paint (Set.preimage (offset + ·) region) (fun index => value (offset + index)) (slice buffer offset length) := by
  ext1 index
  rw [getElem?_slice, getElem?_paint, getElem?_paint, getElem?_slice]
  have size : (slice buffer offset length).length = min length (buffer.length - offset) := by
    rw [slice, length_take, length_drop]
  by_cases within : index < length
  · rw [if_pos within, if_pos within, size]
    have bounds : index < min length (buffer.length - offset) ↔ offset + index < buffer.length := by omega
    simp only [bounds, Set.mem_preimage]
  · rw [if_neg within, if_neg within, size, if_neg]
    intro both
    omega

/-- A slice inside the region has the values. -/
theorem slice_paint_inside {offset length : Nat} (full : source.length = length)
    (fits : offset + length ≤ buffer.length)
    (covered : ∀ place < length, offset + place ∈ region ∧ source[place]? = some (value (offset + place))) :
    slice (paint region value buffer) offset length = source := by
  ext1 place
  rw [getElem?_slice, getElem?_paint]
  by_cases inside : place < length
  · rw [if_pos inside, if_pos ⟨by omega, (covered place inside).1⟩, (covered place inside).2]
  · rw [if_neg inside, getElem?_eq_none (by omega)]

/-- A slice outside the region is unchanged. -/
theorem slice_paint_outside {offset length : Nat} (apart : ∀ place < length, offset + place ∉ region) :
    slice (paint region value buffer) offset length = slice buffer offset length := by
  ext1 place
  rw [getElem?_slice, getElem?_slice, getElem?_paint]
  by_cases inside : place < length
  · rw [if_pos inside, if_pos inside, if_neg fun both => apart place inside both.2]
  · rw [if_neg inside, if_neg inside]

/-- A program writes the values of a region into every buffer of a length. -/
def Paints (length : Nat) (region : Set Nat) (value : Nat → Element)
    (program : List Element → Except Failure (List Element)) : Prop :=
  ∀ buffer, buffer.length = length → program buffer = .ok (paint region value buffer)

end Paint

namespace Paints

variable {failure} {length start stop : Nat} {region other : Set Nat} {value value' : Nat → Element}
  {program next : List Element → Except Failure (List Element)}

theorem congr (paints : Paints length region value program)
    (regions : ∀ index < length, index ∈ region ↔ index ∈ other)
    (values : ∀ index < length, index ∈ other → value index = value' index) : Paints length other value' program := by
  intro buffer full
  subst full
  rw [paints buffer rfl, paint_congr regions values]

theorem pure : Paints length ∅ value (Except.ok : List Element → Except Failure (List Element)) := by
  intro buffer _
  rw [paint_empty]

/-- Programs that write parts of the same values write them together. -/
theorem bind (paints : Paints length region value program) (later : Paints length other value next) :
    Paints length (region ∪ other) value (fun buffer => program buffer >>= next) := by
  intro buffer full
  change program buffer >>= next = _
  rw [paints buffer full]
  change next _ = _
  rw [later _ (by rw [length_paint, full]), paint_paint]

theorem setAt (inside : index < length) : Paints length {index} value (Tiling.setAt failure index (value index)) := by
  intro buffer full
  rw [Tiling.setAt, if_pos (by omega)]
  congr 1
  ext1 place
  rw [getElem?_set, getElem?_paint, Set.mem_singleton_iff]
  by_cases same : place = index
  · rw [if_pos same.symm, if_pos (by omega), if_pos ⟨by omega, same⟩, same]
  · rw [if_neg (Ne.symm same), if_neg fun both => same both.2]

theorem copyOver {size : Nat} (full : source.length = size)
    (values : ∀ index < size, source[index]? = some (value index)) :
    Paints size Set.univ value (Tiling.copyOver failure source) := by
  intro buffer length
  rw [Tiling.copyOver, if_pos (by rw [full, length])]
  congr 1
  ext1 index
  rw [getElem?_paint]
  by_cases inside : index < size
  · rw [if_pos ⟨by omega, Set.mem_univ _⟩, values index inside]
  · rw [if_neg (by omega), getElem?_eq_none (by omega), getElem?_eq_none (by omega)]

/-- A program that writes all of a range in place writes the range of the whole buffer. -/
theorem part (paints : Paints (stop - start) Set.univ (fun index => value (start + index)) program)
    (ordered : start ≤ stop) (inside : stop ≤ length) :
    Paints length (Set.Ico start stop) value (onPart failure start stop program) := by
  intro buffer full
  have size : (slice buffer start (stop - start)).length = stop - start := length_slice (by omega)
  rw [onPart, Tiling.part, if_pos ⟨ordered, by omega⟩]
  change (program _ >>= fun inner => Except.ok (copyFromSlice buffer start inner)) = _
  rw [paints _ size]
  change Except.ok _ = _
  congr 1
  ext1 index
  rw [getElem?_copyFromSlice (by rw [length_paint, size]; omega), getElem?_paint, getElem?_paint, length_paint,
    size, Set.mem_Ico]
  by_cases within : start ≤ index ∧ index < stop
  · rw [if_pos (by omega), if_pos ⟨by omega, Set.mem_univ _⟩, if_pos ⟨by omega, within⟩, Nat.add_sub_cancel' within.1]
  · rw [if_neg (by omega), if_neg fun both => within both.2]

/-- A loop over the tiles of a range writes what its tiles write. -/
theorem tiles (positive : 0 < width) {base : Set Nat} {coordinate : Nat → Nat}
    {body : Nat → Nat → List Element → Except Failure (List Element)} (ordered : start ≤ stop)
    (tile : ∀ first rows, first + rows ≤ stop → start ≤ first → Paints length (base ∩ Set.preimage coordinate (Set.Ico first (first + rows))) value (body first rows)) :
    Paints length (base ∩ Set.preimage coordinate (Set.Ico start stop)) value (Tiling.tiles width positive stop body start) := by
  induction left : stop - start using Nat.strong_induction_on generalizing start with
  | _ left ih =>
      subst left
      intro buffer full
      rw [Tiling.tiles]
      by_cases more : start < stop
      · have rest := @ih (stop - (start + min (stop - start) width)) (by omega)
          (start + min (stop - start) width) (by omega)
          (fun first rows inside behind => tile first rows inside (by omega)) rfl
        have both := (tile start (min (stop - start) width) (by omega) (Nat.le_refl start)).bind rest
        rw [if_pos more]
        rw [← Set.inter_union_distrib_left, ← Set.preimage_union,
          Set.Ico_union_Ico_eq_Ico (Nat.le_add_right _ _) (by omega)] at both
        exact both buffer full
      · have done : start = stop := by omega
        rw [if_neg more, done, Set.Ico_self, Set.preimage_empty, Set.inter_empty, paint_empty]

/-- A loop over the numbers below a bound writes the regions of its steps. -/
theorem union {regions : Nat → Set Nat} {body : List Element → Nat → Except Failure (List Element)} {count : Nat}
    (step : ∀ index < count, Paints length (regions index) value (fun buffer => body buffer index)) :
    Paints length {place | ∃ index < count, place ∈ regions index} value
      (fun buffer => (List.range count).foldlM body buffer) := by
  induction count with
  | zero =>
      refine pure.congr (fun place _ => ?_) fun _ _ _ => rfl
      simp
  | succ count ih =>
      have before := ih fun index below => step index (Nat.lt_succ_of_lt below)
      have both := before.bind (step count (Nat.lt_succ_self count))
      have grown : {place | ∃ index < count, place ∈ regions index} ∪ regions count =
          {place | ∃ index < count + 1, place ∈ regions index} := by
        ext place
        simp only [Set.mem_union, Set.mem_ofPred_eq, Nat.lt_succ_iff_lt_or_eq, or_and_right, exists_or, exists_eq_left]
      rw [grown] at both
      intro buffer full
      change (List.range (count + 1)).foldlM body buffer = _
      rw [List.range_succ, foldlM_append, ← both buffer full]
      simp only [foldlM_cons, foldlM_nil, bind_pure]

/-- A loop over the numbers below a bound writes what its steps write. -/
theorem range {base : Set Nat} {coordinate : Nat → Nat} {body : List Element → Nat → Except Failure (List Element)}
    (first count : Nat) (step : ∀ index < count,
      Paints length (base ∩ Set.preimage coordinate {first + index}) value (fun buffer => body buffer index)) :
    Paints length (base ∩ Set.preimage coordinate (Set.Ico first (first + count))) value
      (fun buffer => (List.range count).foldlM body buffer) := by
  induction count with
  | zero =>
      refine pure.congr (fun index _ => ?_) fun _ _ _ => rfl
      simp
  | succ count ih =>
      have before := ih fun index below => step index (Nat.lt_succ_of_lt below)
      have both := before.bind (step count (Nat.lt_succ_self count))
      have grown : Set.Ico first (first + count) ∪ {first + count} = Set.Ico first (first + (count + 1)) := by
        ext index
        simp only [Set.mem_union, Set.mem_Ico, Set.mem_singleton_iff]
        omega
      rw [← Set.inter_union_distrib_left, ← Set.preimage_union, grown] at both
      intro buffer full
      change (List.range (count + 1)).foldlM body buffer = _
      rw [List.range_succ, foldlM_append, ← both buffer full]
      change (List.range count).foldlM body buffer >>= _ = (List.range count).foldlM body buffer >>= _
      cases (List.range count).foldlM body buffer with
      | error failed => rfl
      | ok done => exact bind_pure (body done count)

end Paints

theorem mapM_ok {Item : Type} {items : List Item} {step : Item → Except Failure State} {done : Item → State}
    (each : ∀ item ∈ items, step item = .ok (done item)) : items.mapM step = .ok (items.map done) := by
  induction items with
  | nil => rfl
  | cons item items ih =>
      rw [mapM_cons, each item mem_cons_self, ih fun other member => each other (mem_cons_of_mem _ member)]
      rfl

/-- The chunks of a list make up the list. -/
theorem flatten_slices (elements : List Element) (width count : Nat) :
    ((List.range count).map fun index => slice elements (index * width) width).flatten =
      elements.take (count * width) := by
  induction count with
  | zero => simp
  | succ count ih =>
      rw [List.range_succ, map_append, flatten_append, ih, Nat.succ_mul, take_add]
      simp [slice]

variable {width : Nat} {work : Nat → List Element → Except Failure (List Element)} {error : Failure} {index : Nat}
  {source : List Element}

/-- The chunks together write what the programs write that run on one chunk each. -/
theorem Paints.chunks {failure} {length : Nat} {value : Nat → Element} (positive : 0 < width)
    (chunk : ∀ index, index * width < length → Paints (min width (length - index * width)) Set.univ (fun place => value (index * width + place)) (work index)) :
    Paints length Set.univ value (Tiling.chunks failure width work) := by
  intro buffer full
  have each : ∀ index ∈ List.range ((buffer.length + width - 1) / width),
      work index (slice buffer (index * width) width) =
        .ok (slice (paint Set.univ value buffer) (index * width) width) := by
    intro index member
    have below : index * width < length := by
      have := (Nat.le_div_iff_mul_le positive).mp (Nat.succ_le_of_lt (mem_range.mp member))
      rw [Nat.succ_mul] at this
      omega
    rw [chunk index below _ (by rw [slice, length_take, length_drop, full]), slice_paint]
    rfl
  have whole : buffer.length ≤ (buffer.length + width - 1) / width * width := by
    have := @Nat.lt_div_mul_add (buffer.length + width - 1) width positive
    omega
  rw [Tiling.chunks, if_neg (Nat.ne_of_gt positive)]
  change ((List.range _).mapM _ >>= fun done => Except.ok done.flatten) = _
  rw [mapM_ok each]
  change Except.ok _ = _
  rw [flatten_slices, take_of_length_le (by rwa [length_paint])]

/-- Chunks fail if the program on the first one does. -/
theorem chunks_error {failure : Failure} {buffer : List Element} (positive : 0 < width) (some : 0 < buffer.length)
    (failed : work 0 (slice buffer 0 width) = .error error) : chunks failure width work buffer = .error error := by
  have count : 0 < (buffer.length + width - 1) / width := Nat.div_pos (by omega) positive
  obtain ⟨more, more'⟩ := Nat.exists_eq_add_of_lt count
  rw [chunks, if_neg (Nat.ne_of_gt positive), more', Nat.zero_add, range_succ_eq_map]
  change (List.mapM _ (0 :: _) >>= _) = _
  rw [mapM_cons, Nat.zero_mul, failed]
  rfl

theorem onPart_copyOver {failure failure' : Failure} {start stop : Nat} {source buffer : List Element}
    (full : start + source.length = stop) (inside : stop ≤ buffer.length) :
    onPart failure start stop (copyOver failure' source) buffer = .ok (copyFromSlice buffer start source) := by
  have size : source.length = (slice buffer start (stop - start)).length := by
    rw [length_slice (by omega)]
    omega
  rw [onPart, part_inside (by omega) inside]
  change (copyOver failure' source _ >>= _) = _
  rw [copyOver, if_pos size]
  rfl

theorem onPart_error {failure : Failure} {start stop : Nat} {work : List Element → Except Failure (List Element)}
    {buffer : List Element} (ordered : start ≤ stop) (inside : stop ≤ buffer.length)
    (failed : work (slice buffer start (stop - start)) = .error error) :
    onPart failure start stop work buffer = .error error := by
  rw [onPart, part, if_pos ⟨ordered, inside⟩]
  change (work _ >>= _) = _
  rw [failed]
  rfl

end Pictor.Tiling
