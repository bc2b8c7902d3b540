import Mathlib.Tactic.IntervalCases
import Mathlib.Tactic.Linarith
import Pictor.Construction.Quant.Ternary
import Pictor.Library.Outcome
import Pictor.Library.RowMajor

namespace Pictor.Ternary
open LittleEndian List Outcome RowMajor Slice

variable {f16FromF32 : ℚ → ℚ} {module : String} {row group j inFeatures outFeatures : Nat} {words weight : List Nat}
  {scale bias s : ℚ} {scales biases chunk : List ℚ} {block : BlockTQ2_0_g128} {blocks : List BlockTQ2_0_g128}

/-- The code of a byte of a word is a code of the word. -/
theorem codeAt_byte (word place : Nat) {lane : Nat} (low : lane < 4) :
    codeAt (UInt8.ofNat (word >>> (place * 8))).toNat lane = codeAt word (place * 4 + lane) := by
  rw [codeAt, codeAt, show (place * 4 + lane) * 2 = place * 8 + lane * 2 by omega, Nat.shiftRight_add,
    UInt8.toNat_ofNat']
  generalize word >>> (place * 8) = high
  simp only [Nat.shiftRight_eq_div_pow]
  interval_cases lane <;> omega

theorem packGroup_weight (full : words.length = 8) (inside : j < 128)
    (ran : packGroup f16FromF32 module row group words scale bias = .ok block) :
    let code := codeAt (words.getD (j / 16) 0) (j % 16)
    code < 3 ∧ bias = -scale ∧ block.weight j = f16FromF32 scale * ((code : ℤ) - 1 : ℤ) := by
  have there : j / 16 < words.length := by omega
  have found : words[j / 16]? = some (words.getD (j / 16) 0) := getElem?_getD 0 there
  rw [packGroup] at ran
  split at ran
  · cases ran
  case h_2 fine =>
    split at ran
    · cases ran
    case isFalse equal =>
      cases ran
      have small := List.find?_eq_none.mp fine (codeAt (words.getD (j / 16) 0) (j % 16)) (mem_flatMap.mpr
        ⟨_, mem_of_getElem? found, mem_map.mpr ⟨_, mem_range.mpr (Nat.mod_lt _ (by decide)), rfl⟩⟩)
      have low : codeAt (words.getD (j / 16) 0) (j % 16) < 3 := by
        rw [decide_eq_true_eq] at small
        omega
      have same := codeAt_byte (words.getD (j / 16) 0) (j / 4 % 4) (Nat.mod_lt j (show 0 < 4 by decide))
      have stands := @getElem?_flatMap _ 4 _ (leBytes 4) words (j / 16) _ (fun _ _ => length_leBytes 4 _)
        (Nat.mod_lt (j / 4) (by decide))
      rw [found, Option.bind_some, getElem?_leBytes (Nat.mod_lt (j / 4) (by decide)),
        show j / 16 * 4 + j / 4 % 4 = j / 4 by omega] at stands
      rw [show j / 4 % 4 * 4 + j % 4 = j % 16 by omega] at same
      refine ⟨low, not_not.mp equal, ?_⟩
      rw [BlockTQ2_0_g128.weight, getD_eq_getElem?_getD, stands, Option.getD_some, ternaryDecode, same]
      generalize codeAt _ _ = code at low
      interval_cases code <;> rfl

theorem absmax_cases {m : ℚ} (positive : 0 ≤ m) (each : ∀ x ∈ chunk, x = 0 ∨ |x| = m) :
    (∀ x ∈ chunk, x = 0) ∧ absmax chunk = 0 ∨ absmax chunk = m := by
  induction chunk using List.reverseRecOn with
  | nil => exact Or.inl ⟨forall_mem_nil _, rfl⟩
  | append_singleton chunk x ih =>
      obtain ⟨before, here⟩ := forall_mem_append.mp each
      have next : absmax (chunk ++ [x]) = max (absmax chunk) |x| := by
        rw [absmax, foldl_append]
        rfl
      rw [next]
      rcases here x (mem_singleton_self x) with rfl | large
      · rw [abs_zero]
        rcases ih before with ⟨zeros, none⟩ | same
        · exact Or.inl ⟨forall_mem_append.mpr ⟨zeros, forall_mem_singleton.mpr rfl⟩, by rw [none, max_self]⟩
        · exact Or.inr (by rw [same, max_eq_left positive])
      · rw [large]
        rcases ih before with ⟨_, none⟩ | same
        · exact Or.inr (by rw [none, max_eq_right positive])
        · exact Or.inr (by rw [same, max_self])

theorem ternaryCode_decode {m : ℚ} (positive : 0 < m) {t : ℤ} (small : t = -1 ∨ t = 0 ∨ t = 1) :
    ∃ code : Fin 3, ternaryCode (1 / 2 * m) (m * t) = UInt8.ofNat code ∧ (code : ℤ) - 1 = t := by
  rw [ternaryCode]
  rcases small with rfl | rfl | rfl
  · rw [if_neg (by push_cast; linarith), if_pos (by push_cast; linarith)]
    exact ⟨0, rfl, rfl⟩
  · rw [if_neg (by push_cast; linarith), if_neg (by push_cast; linarith)]
    exact ⟨1, rfl, rfl⟩
  · rw [if_pos (by push_cast; linarith)]
    exact ⟨2, rfl, rfl⟩

theorem ternaryDecode_joined (code : Fin 4 → Fin 3) (lane : Fin 4) :
    ternaryDecode ((0 : UInt8) ||| UInt8.ofNat (code 0) <<< 0 ||| UInt8.ofNat (code 1) <<< 2 ||| UInt8.ofNat (code 2) <<< 4 |||
      UInt8.ofNat (code 3) <<< 6) lane = (code lane : ℤ) - 1 := by
  have all : ∀ a b c d : Fin 3, ∀ lane : Fin 4, ternaryDecode ((0 : UInt8) ||| UInt8.ofNat a <<< 0 ||| UInt8.ofNat b <<< 2 |||
      UInt8.ofNat c <<< 4 ||| UInt8.ofNat d <<< 6) lane = ([a, b, c, d].get lane : ℤ) - 1 := by decide +kernel
  rw [all (code 0) (code 1) (code 2) (code 3)]
  match lane with
  | 0 => rfl
  | 1 => rfl
  | 2 => rfl
  | 3 => rfl

theorem quantizeChunk_weight (odd : ∀ x, f16FromF32 (-x) = -f16FromF32 x) (t : Nat → ℤ) (full : chunk.length = 128)
    (each : ∀ j < 128, chunk.getD j 0 = s * t j ∧ (t j = -1 ∨ t j = 0 ∨ t j = 1)) (inside : j < 128) :
    (quantizeChunk f16FromF32 chunk).weight j = f16FromF32 s * t j := by
  have sizes : ∀ x ∈ chunk, x = 0 ∨ |x| = |s| := by
    intro x member
    obtain ⟨place, found⟩ := mem_iff_getElem?.mp member
    obtain ⟨same, small⟩ := each place (full ▸ (List.getElem?_eq_some_iff.mp found).1)
    rw [getD_eq_getElem?_getD, found, Option.getD_some] at same
    rw [same]
    rcases small with t | t | t <;> simp [t]
  have here := (each j inside).1
  rcases em (absmax chunk = 0) with none | some
  · have zero : s * t j = 0 := by
      rcases absmax_cases (abs_nonneg s) sizes with ⟨zeros, _⟩ | same
      · exact here ▸ zeros _ (mem_of_getElem? (getElem?_getD 0 (full ▸ inside)))
      · rw [abs_eq_zero.mp (same.symm.trans none), zero_mul]
    have still : f16FromF32 0 = 0 := by
      have := odd 0
      rw [neg_zero] at this
      linarith
    rw [quantizeChunk, if_pos none, BlockTQ2_0_g128.weight, zero_mul]
    rcases mul_eq_zero.mp zero with rfl | t <;> simp [*]
  · have same := (absmax_cases (abs_nonneg s) sizes).resolve_left fun zeros => some zeros.2
    have nonzero : s ≠ 0 := fun zero => some (by rw [same, zero, abs_zero])
    obtain ⟨u, sign, units⟩ : ∃ u : ℤ, s = |s| * u ∧ f16FromF32 s = f16FromF32 |s| * u ∧ (u = 1 ∨ u = -1) := by
      rcases abs_choice s with same | same
      · exact ⟨1, by simp [same], by simp [same], Or.inl rfl⟩
      · exact ⟨-1, by simp [same], by simp [same, odd], Or.inr rfl⟩
    have codes (lane : Fin 4) : ∃ code : Fin 3, ternaryCode (1 / 2 * |s|) (chunk.getD (j / 4 * 4 + lane) 0) =
        UInt8.ofNat code ∧ (code : ℤ) - 1 = u * t (j / 4 * 4 + lane) := by
      obtain ⟨same, small⟩ := each (j / 4 * 4 + lane) (by omega)
      rw [same, sign, mul_assoc, ← Int.cast_mul, ← sign]
      refine ternaryCode_decode (abs_pos.mpr nonzero) ?_
      rcases units.2 with rfl | rfl <;> omega
    choose code coded exact_ using codes
    have joined := ternaryDecode_joined code ⟨j % 4, Nat.mod_lt j (by decide)⟩
    rw [exact_, show j / 4 * 4 + j % 4 = j by omega] at joined
    have byte : (quantizeChunk f16FromF32 chunk).qs.getD (j / 4) 0 = (0 : UInt8) ||| UInt8.ofNat (code 0) <<< 0 |||
        UInt8.ofNat (code 1) <<< 2 ||| UInt8.ofNat (code 2) <<< 4 ||| UInt8.ofNat (code 3) <<< 6 := by
      rw [quantizeChunk, if_neg some, getD_eq_getElem?_getD, List.getElem?_map, List.getElem?_range (by omega),
        ← coded, ← coded, ← coded, ← coded, same]
      rfl
    rw [BlockTQ2_0_g128.weight, byte, joined, quantizeChunk, if_neg some, same, units.1]
    push_cast
    ring

/-- An accepted module has the block of each group in the order of its rows. -/
theorem packed (ran : packQuantizedModule f16FromF32 module weight scales biases outFeatures inFeatures = .ok blocks) :
    ∃ groupCols, inFeatures = groupCols * 128 ∧ weight.length = outFeatures * groupCols * 8 ∧
      blocks.length = outFeatures * groupCols ∧ ∀ row < outFeatures, ∀ group < groupCols, ∃ block,
        blocks[row * groupCols + group]? = some block ∧
        packGroup f16FromF32 module row group (slice weight ((row * groupCols + group) * 8) 8)
          (scales.getD (row * groupCols + group) 0) (biases.getD (row * groupCols + group) 0) = .ok block := by
  rw [packQuantizedModule] at ran
  split at ran
  · cases ran
  case isFalse aligned =>
    obtain ⟨groupCols, rfl⟩ : ∃ groupCols, inFeatures = groupCols * 128 := ⟨inFeatures / 128, by omega⟩
    have words : groupCols * 128 / codesPerU32 = groupCols * 8 := by
      rw [codesPerU32]
      omega
    simp only [Nat.mul_div_cancel groupCols (show 0 < 128 by decide), words, ← Nat.mul_assoc] at ran
    split at ran
    · cases ran
    case isFalse filled =>
      split at ran
      · cases ran
      split at ran
      · cases ran
      obtain ⟨rows, each, same⟩ := bind_ok ran
      cases same
      obtain ⟨counted, found⟩ := mapM_range_ok each
      have even : ∀ row ∈ rows, row.length = groupCols := by
        intro row member
        obtain ⟨place, here⟩ := mem_iff_getElem?.mp member
        obtain ⟨row', here', ran⟩ := found place (counted ▸ (List.getElem?_eq_some_iff.mp here).1)
        rw [here] at here'
        cases here'
        exact (mapM_range_ok ran).1
      refine ⟨groupCols, rfl, not_not.mp filled, ?_, fun row inside group below => ?_⟩
      · rw [length_flatten even, counted]
      · obtain ⟨found, here, ran⟩ := found row inside
        obtain ⟨block, there, packed⟩ := (mapM_range_ok ran).2 group below
        rw [← Nat.add_mul] at packed
        refine ⟨block, ?_, packed⟩
        rw [← flatMap_id, @getElem?_flatMap _ _ _ id _ _ _ even below, here]
        exact there

theorem getElem?_moduleWeights (inside : row < outFeatures) (below : j < inFeatures) :
    (moduleWeights weight scales biases outFeatures inFeatures)[row * inFeatures + j]? =
      some (moduleCode weight inFeatures row j * scales.getD (row * (inFeatures / 128) + j / 128) 0 +
        biases.getD (row * (inFeatures / 128) + j / 128) 0) := by
  rw [moduleWeights, getElem?_flatMap (fun _ _ => by rw [length_map, length_range]) below,
    List.getElem?_range inside, Option.bind_some, List.getElem?_map, List.getElem?_range below, Option.map_some]

theorem length_moduleWeights : (moduleWeights weight scales biases outFeatures inFeatures).length =
    outFeatures * inFeatures := by
  rw [moduleWeights, flatMap_def, length_flatten (fun _ member => ?_), length_map, length_range]
  obtain ⟨_, _, rfl⟩ := mem_map.mp member
  rw [length_map, length_range]

/-- Both blocks of a group have the same weights. -/
theorem group_agrees {groupCols : Nat} (odd : ∀ x, f16FromF32 (-x) = -f16FromF32 x)
    (filled : weight.length = outFeatures * groupCols * 8) (inside : row < outFeatures) (below : group < groupCols)
    (packed : packGroup f16FromF32 module row group (slice weight ((row * groupCols + group) * 8) 8)
      (scales.getD (row * groupCols + group) 0) (biases.getD (row * groupCols + group) 0) = .ok block) :
    ∀ lane < 128, block.weight lane = f16FromF32 (scales.getD (row * groupCols + group) 0) *
        (moduleCode weight (groupCols * 128) row (group * 128 + lane) - 1) ∧
      (quantizeChunk f16FromF32 (slice (moduleWeights weight scales biases outFeatures (groupCols * 128))
        ((row * groupCols + group) * 128) 128)).weight lane = block.weight lane := by
  have start := place_lt inside below
  have full : (slice weight ((row * groupCols + group) * 8) 8).length = 8 := length_slice (by omega)
  have each (lane : Nat) (low : lane < 128) := packGroup_weight full low packed
  have code {lane : Nat} (low : lane < 128) :
      codeAt ((slice weight ((row * groupCols + group) * 8) 8).getD (lane / 16) 0) (lane % 16) =
        moduleCode weight (groupCols * 128) row (group * 128 + lane) := by
    rw [moduleCode, codesPerU32, getD_eq_getElem?_getD, getD_eq_getElem?_getD, getElem?_slice,
      if_pos (by omega), show groupCols * 128 / 16 = groupCols * 8 by omega, ← Nat.mul_assoc, Nat.add_mul,
      show (group * 128 + lane) / 16 = group * 8 + lane / 16 by omega, show (group * 128 + lane) % 16 = lane % 16 by omega,
      Nat.add_assoc]
  intro lane low
  obtain ⟨_, _, same⟩ := each lane low
  rw [same, code low]
  refine ⟨by push_cast; rfl, ?_⟩
  refine quantizeChunk_weight odd (fun lane => (moduleCode weight (groupCols * 128) row (group * 128 + lane) : ℤ) - 1) ?_
    (fun lane low => ?_) low
  · rw [slice, length_take, length_drop, length_moduleWeights, ← Nat.mul_assoc]
    omega
  · obtain ⟨small, symmetric, _⟩ := each lane low
    rw [code low] at small
    refine ⟨?_, by omega⟩
    have place : (row * groupCols + group) * 128 + lane = row * (groupCols * 128) + (group * 128 + lane) := by ring
    rw [getD_eq_getElem?_getD, getElem?_slice, if_pos low, place, getElem?_moduleWeights inside (by omega),
      Option.getD_some, Nat.mul_div_cancel groupCols (by decide), show (group * 128 + lane) / 128 = group by omega,
      symmetric]
    push_cast
    ring

/-- For an accepted module both routes give blocks with the same weights, each at its place. -/
theorem routes_agree (odd : ∀ x, f16FromF32 (-x) = -f16FromF32 x)
    (ran : packQuantizedModule f16FromF32 module weight scales biases outFeatures inFeatures = .ok blocks) :
    ∃ blocks', quantize f16FromF32 (moduleWeights weight scales biases outFeatures inFeatures) = .ok blocks' ∧
      (∀ output, dequant blocks output = dequant blocks' output) ∧
      ∀ row < outFeatures, ∀ j < inFeatures, ∃ block block',
        blocks[row * (inFeatures / 128) + j / 128]? = some block ∧
        blocks'[row * (inFeatures / 128) + j / 128]? = some block' ∧
        block.weight (j % 128) = f16FromF32 (scales.getD (row * (inFeatures / 128) + j / 128) 0) *
          (moduleCode weight inFeatures row j - 1) ∧ block'.weight (j % 128) = block.weight (j % 128) := by
  obtain ⟨groupCols, rfl, filled, counted, found⟩ := packed ran
  have length := @length_moduleWeights (groupCols * 128) outFeatures weight scales biases
  rw [← Nat.mul_assoc] at length
  rw [Nat.mul_div_cancel groupCols (by decide)]
  refine ⟨_, by rw [quantize, if_neg (by omega)], fun output => ?_, fun row inside j below => ?_⟩
  · have same : blocks.map (fun block => (List.range 128).map block.weight) =
        ((List.range (outFeatures * groupCols)).map fun blockIdx => quantizeChunk f16FromF32 (slice (moduleWeights weight
          scales biases outFeatures (groupCols * 128)) (blockIdx * 128) 128)).map fun block =>
            (List.range 128).map block.weight := by
      refine ext_getElem? fun place => ?_
      rw [List.getElem?_map, List.getElem?_map, List.getElem?_map]
      rcases Nat.lt_or_ge place (outFeatures * groupCols) with below | beyond
      · have cols := Nat.mod_lt place (Nat.pos_of_mul_pos_left (Nat.zero_lt_of_lt below))
        have rows : place / groupCols < outFeatures := Nat.div_lt_of_lt_mul (by rwa [Nat.mul_comm])
        obtain ⟨block, here, packed⟩ := found _ rows _ cols
        have same := group_agrees odd filled rows cols packed
        rw [Nat.div_add_mod'] at here same
        rw [here, List.getElem?_range below]
        exact congrArg some (map_congr_left fun lane member => (same lane (mem_range.mp member)).2.symm)
      · rw [List.getElem?_eq_none (counted ▸ beyond), List.getElem?_eq_none (by rwa [length_range])]
        rfl
    rw [dequant, dequant, flatMap_def, flatMap_def, same, counted, length,
      Nat.mul_div_cancel _ (by decide), length_map, length_range]
  · have group : j / 128 < groupCols := by omega
    obtain ⟨block, here, packed⟩ := found row inside (j / 128) group
    obtain ⟨value, same⟩ := group_agrees odd filled inside group packed (j % 128) (Nat.mod_lt j (by decide))
    rw [Nat.div_add_mod'] at value
    refine ⟨block, _, here, ?_, value, same⟩
    have place := place_lt inside group
    rw [List.getElem?_map, List.getElem?_range (by rwa [length, Nat.mul_div_cancel _ (by decide)]), Option.map_some]

/-- A module with a negative scale. -/
theorem routes_agree_negative : ∃ blocks blocks',
    packQuantizedModule id "" (replicate 8 0x24861248) [-2] [2] 1 128 = .ok blocks ∧
    quantize id (moduleWeights (replicate 8 0x24861248) [-2] [2] 1 128) = .ok blocks' ∧
    ∀ output, dequant blocks output = dequant blocks' output := by
  have ran : packQuantizedModule id "" (replicate 8 0x24861248) [-2] [2] 1 128 =
      .ok [⟨(replicate 8 0x24861248).flatMap (leBytes 4), -2⟩] := rfl
  obtain ⟨blocks', quantized, same, _⟩ := routes_agree (show ∀ x : ℚ, id (-x) = -id x from fun _ => rfl) ran
  exact ⟨_, blocks', ran, quantized, same⟩

end Pictor.Ternary
