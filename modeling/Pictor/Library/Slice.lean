import Mathlib.Data.List.Basic
import Mathlib.Tactic.Ring

namespace Pictor.Slice
open List

variable {Element : Type}

/-- The elements from an offset on. -/
def slice (elements : List Element) (offset length : Nat) : List Element :=
  (elements.drop offset).take length

/-- The copy of a source over the elements from an offset on. -/
def copyFromSlice (elements : List Element) (offset : Nat) (source : List Element) : List Element :=
  elements.take offset ++ source ++ elements.drop (offset + source.length)

variable {elements source : List Element} {offset other length : Nat}

theorem getElem?_getD (default : Element) (inside : offset < elements.length) :
    elements[offset]? = some (elements.getD offset default) := by
  rw [getD_eq_getElem?_getD, getElem?_eq_getElem inside, Option.getD_some]

theorem length_slice (room : offset + length ≤ elements.length) : (slice elements offset length).length = length := by
  rw [slice, length_take, length_drop]
  omega

/-- A row ends where the next one starts. -/
theorem row_le {row rows : Nat} (inside : row < rows) (width : Nat) : row * width + width ≤ rows * width :=
  Nat.succ_mul row width ▸ Nat.mul_le_mul_right width inside

theorem length_row {row rows width : Nat} (inside : row < rows) (full : rows * width ≤ elements.length) :
    (slice elements (row * width) width).length = width := length_slice (Nat.le_trans (row_le inside width) full)

theorem getElem?_slice (k : Nat) :
    (slice elements offset length)[k]? = if k < length then elements[offset + k]? else none := by
  rw [slice, getElem?_take]
  split <;> simp [getElem?_drop]

variable (inside : offset + source.length ≤ elements.length)
include inside

theorem getElem?_copyFromSlice (k : Nat) : (copyFromSlice elements offset source)[k]? =
      if offset ≤ k ∧ k < offset + source.length then source[k - offset]? else elements[k]? := by
  have start : (elements.take offset).length = offset := by
    rw [length_take]
    omega
  rw [copyFromSlice, append_assoc]
  by_cases before : k < offset
  · rw [getElem?_append_left (by omega), getElem?_take, if_pos before, if_neg (by omega)]
  · rw [getElem?_append_right (by omega), start]
    by_cases within : k < offset + source.length
    · rw [getElem?_append_left (by omega), if_pos (by omega)]
    · rw [getElem?_append_right (by omega), if_neg (by omega), getElem?_drop]
      congr 1
      omega

@[simp] theorem length_copyFromSlice : (copyFromSlice elements offset source).length = elements.length := by
  simp only [copyFromSlice, length_append, length_take, length_drop]
  omega

/-- The slice of a copy is its source. -/
theorem slice_copyFromSlice (full : source.length = length) :
    slice (copyFromSlice elements offset source) offset length = source := by
  ext1 k
  rw [getElem?_slice, getElem?_copyFromSlice inside]
  by_cases within : k < length
  · rw [if_pos within, if_pos (by omega)]
    congr 1
    omega
  · rw [if_neg within, getElem?_eq_none (by omega)]

/-- A copy leaves a disjoint slice unchanged. -/
theorem slice_copyFromSlice_apart (apart : other + length ≤ offset ∨ offset + source.length ≤ other) :
    slice (copyFromSlice elements offset source) other length = slice elements other length := by
  ext1 k
  rw [getElem?_slice, getElem?_slice]
  by_cases within : k < length
  · rw [if_pos within, if_pos within, getElem?_copyFromSlice inside, if_neg (by omega)]
  · rw [if_neg within, if_neg within]

omit inside

theorem slice_add (elements : List Element) (offset first second : Nat) :
    slice elements offset (first + second) = slice elements offset first ++ slice elements (offset + first) second := by
  rw [slice, slice, slice, take_add, drop_drop]

theorem slice_slice {inner size : Nat} (inside : inner + size ≤ length) :
    slice (slice elements offset length) inner size = slice elements (offset + inner) size := by
  rw [slice, slice, slice, drop_take, drop_drop, take_take, Nat.min_eq_left (by omega)]

theorem slice_whole (elements : List Element) : slice elements 0 elements.length = elements := by
  rw [slice, drop_zero, take_length]

/-- Lists with equal slices have equal prefixes. -/
theorem take_eq_of_slices {size count : Nat} {elements elements' : List Element}
    (same : ∀ k < count, slice elements (k * size) size = slice elements' (k * size) size) :
    elements.take (count * size) = elements'.take (count * size) := by
  induction count with
  | zero => simp
  | succ count ih =>
      have before := ih fun k below => same k (Nat.lt_succ_of_lt below)
      have last := same count (Nat.lt_succ_self count)
      rw [slice, slice] at last
      rw [Nat.succ_mul, take_add, take_add, before, last]

/-- A piece stands at an offset. -/
def StandsAt (elements : List Element) (offset : Nat) (piece : List Element) : Prop :=
  offset ≤ elements.length ∧ piece <+: elements.drop offset

theorem standsAt_iff_slice (piece : List Element) : StandsAt elements offset piece ↔
      offset + piece.length ≤ elements.length ∧ slice elements offset piece.length = piece := by
  rw [StandsAt, slice, prefix_iff_eq_take]
  constructor
  · rintro ⟨inside, same⟩
    have room := congrArg List.length same
    rw [length_take, length_drop] at room
    exact ⟨by omega, same.symm⟩
  · rintro ⟨inside, same⟩
    exact ⟨by omega, same.symm⟩

/-- Two pieces stand one after another exactly if both of them stand at their offsets. -/
theorem standsAt_append (first second : List Element) : StandsAt elements offset (first ++ second) ↔
      StandsAt elements offset first ∧ StandsAt elements (offset + first.length) second := by
  constructor
  · rintro ⟨inside, rest, same⟩
    have room := congrArg List.length same
    rw [length_drop, length_append, length_append] at room
    refine ⟨⟨inside, second ++ rest, by rw [← same, append_assoc]⟩, by omega, rest, ?_⟩
    rw [← drop_drop, ← same, append_assoc, drop_left]
  · rintro ⟨⟨inside, front, same⟩, _, back, same'⟩
    rw [← drop_drop, ← same, drop_left] at same'
    exact ⟨inside, back, by rw [append_assoc, same', same]⟩

/-- A list is a prefix of itself behind equal elements exactly if these are its only elements. -/
theorem prefix_replicate_append (count : Nat) (element : Element) (elements : List Element) :
    elements <+: List.replicate count element ++ elements ↔ count = 0 ∨ ∀ other ∈ elements, other = element := by
  cases count with
  | zero => exact iff_of_true (prefix_refl _) (Or.inl rfl)
  | succ count =>
      rw [or_iff_right (Nat.succ_ne_zero count)]
      induction elements with
      | nil => exact iff_of_true List.nil_prefix fun _ none => (nomatch none)
      | cons first rest ih =>
          have shifted : first = element → List.replicate count element ++ first :: rest =
              List.replicate (count + 1) element ++ rest := by
            rintro rfl
            rw [replicate_succ', append_assoc, singleton_append]
          rw [replicate_succ, cons_append, cons_prefix_cons, forall_mem_cons, ← ih]
          constructor
          · rintro ⟨same, inside⟩
            rw [shifted same] at inside
            exact ⟨same, inside⟩
          · rintro ⟨same, inside⟩
            rw [shifted same]
            exact ⟨same, inside⟩

/-- Behind a padding of equal elements, a list stands at its own start, or inside the padding if it has no
other elements. -/
theorem standsAt_padded {front piece : List Element} {count : Nat} {element : Element}
    (behind : front.length ≤ offset) : StandsAt (front ++ (List.replicate count element ++ piece)) offset piece ↔
      offset = front.length + count ∨ offset < front.length + count ∧ ∀ other ∈ piece, other = element := by
  obtain ⟨inner, rfl⟩ := Nat.exists_eq_add_of_le behind
  rw [StandsAt, drop_length_add_append, length_append, length_append, length_replicate]
  by_cases within : inner ≤ count
  · rw [drop_append_of_le_length (by rwa [length_replicate]), drop_replicate,
      prefix_replicate_append]
    constructor
    · rintro ⟨_, same | others⟩
      · exact Or.inl (by omega)
      · by_cases last : inner = count
        · exact Or.inl (by rw [last])
        · exact Or.inr ⟨by omega, others⟩
    · rintro (same | ⟨_, others⟩)
      · exact ⟨by omega, Or.inl (by omega)⟩
      · exact ⟨by omega, Or.inr others⟩
  · refine iff_of_false ?_ (by omega)
    rintro ⟨inside, stands⟩
    have short := stands.length_le
    rw [length_drop, length_append, length_replicate] at short
    omega

end Pictor.Slice

namespace Pictor.LittleEndian
open List

/-- The lowest byte comes first. -/
def leBytes : Nat → Nat → List UInt8
  | 0, _ => []
  | width + 1, value => UInt8.ofNat value :: leBytes width (value / 256)

def ofLeBytes : List UInt8 → Nat
  | [] => 0
  | byte :: bytes => byte.toNat + 256 * ofLeBytes bytes

@[simp] theorem length_leBytes (width value : Nat) : (leBytes width value).length = width := by
  induction width generalizing value with
  | zero => rfl
  | succ width ih => rw [leBytes, List.length_cons, ih]

theorem getElem?_leBytes {width place : Nat} (inside : place < width) (value : Nat) :
    (leBytes width value)[place]? = some (UInt8.ofNat (value >>> (place * 8))) := by
  induction width generalizing place value with
  | zero => omega
  | succ width ih =>
      cases place with
      | zero => rfl
      | succ place =>
          rw [leBytes, getElem?_cons_succ, ih (Nat.lt_of_succ_lt_succ inside), Nat.succ_mul,
            Nat.add_comm (place * 8), Nat.shiftRight_add, Nat.shiftRight_eq_div_pow value]

/-- A number below the bound of its width is read back. -/
theorem ofLeBytes_leBytes {width value : Nat} (fits : value < 256 ^ width) :
    ofLeBytes (leBytes width value) = value := by
  induction width generalizing value with
  | zero =>
      have zero : value = 0 := by
        rw [pow_zero] at fits
        omega
      rw [zero]
      rfl
  | succ width ih =>
      have higher : value / 256 < 256 ^ width := by
        rw [pow_succ] at fits
        omega
      have lowest : (UInt8.ofNat value).toNat = value % 256 := rfl
      rw [leBytes, ofLeBytes, ih higher, lowest]
      omega

theorem ofLeBytes_lt (bytes : List UInt8) : ofLeBytes bytes < 256 ^ bytes.length := by
  induction bytes with
  | nil => decide
  | cons byte bytes ih =>
      have small := byte.toNat_lt
      rw [ofLeBytes, List.length_cons, pow_succ]
      omega

/-- A number below the bound has one encoding of its width. -/
theorem leBytes_ofLeBytes (bytes : List UInt8) : leBytes bytes.length (ofLeBytes bytes) = bytes := by
  induction bytes with
  | nil => rfl
  | cons byte bytes ih =>
      have small := byte.toNat_lt
      have low : UInt8.ofNat (byte.toNat + 256 * ofLeBytes bytes) = byte := by
        apply UInt8.toNat_inj.mp
        change (byte.toNat + 256 * ofLeBytes bytes) % 256 = _
        omega
      have high : (byte.toNat + 256 * ofLeBytes bytes) / 256 = ofLeBytes bytes := by omega
      rw [List.length_cons, ofLeBytes, leBytes, low, high, ih]

end Pictor.LittleEndian
