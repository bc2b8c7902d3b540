import Mathlib.Data.FinEnum
import Pictor.Construction.Image.MlxRng
import Pictor.Library.Scatter

namespace Pictor.MlxRng
open Scatter Tiling List

section Bijection

theorem rotateLeft_injective (count : Nat) : Function.Injective (rotateLeft · count) := by
  intro first second same
  apply UInt32.toBitVec_inj.mp
  have rotated : first.toBitVec.rotateLeft count = second.toBitVec.rotateLeft count := congrArg UInt32.toBitVec same
  ext i inside
  have shift : count % 32 < 32 := Nat.mod_lt count (by decide)
  by_cases low : i + count % 32 < 32
  · have here := congrArg (·[i + count % 32]) rotated
    simp only [BitVec.getElem_rotateLeft, dif_neg (Nat.not_lt.mpr (Nat.le_add_left (count % 32) i)),
      Nat.add_sub_cancel] at here
    exact here
  · have place : i + count % 32 - 32 < count % 32 := by omega
    have here := congrArg (·[i + count % 32 - 32]) rotated
    have back : 32 - count % 32 + (i + count % 32 - 32) = i := by omega
    simp only [BitVec.getElem_rotateLeft, dif_pos place, back] at here
    exact here

theorem mix_injective (r : Nat) : Function.Injective (mix · r) := by
  rintro ⟨first, second⟩ ⟨first', second'⟩ same
  obtain ⟨sums, words⟩ := Prod.mk.inj same
  rw [sums] at words
  have seconds : second = second' := rotateLeft_injective r (UInt32.xor_left_inj _ |>.mp words)
  subst seconds
  exact Prod.ext (UInt32.add_left_inj second |>.mp sums) rfl

theorem inject_injective (key : Pair) (i : Nat) : Function.Injective (inject key · i) := by
  rintro ⟨first, second⟩ ⟨first', second'⟩ same
  obtain ⟨firsts, seconds⟩ := Prod.mk.inj same
  exact Prod.ext (UInt32.add_left_inj _ |>.mp firsts)
    (UInt32.add_left_inj _ |>.mp (UInt32.add_left_inj _ |>.mp seconds))

theorem foldl_injective {State Item : Type} {step : State → Item → State}
    (each : ∀ item, Function.Injective (step · item)) (items : List Item) :
    Function.Injective fun state => items.foldl step state := by
  induction items with
  | nil => exact Function.injective_id
  | cons item items ih => exact ih.comp (each item)

/-- Every step of the hash can be undone. -/
theorem threefry2x32_bijective (key : Pair) : Function.Bijective (threefry2x32 key) := by
  apply Finite.injective_iff_bijective.mp
  have start : Function.Injective fun count : Pair => (count.1 + ks key 0, count.2 + ks key 1) := by
    rintro ⟨first, second⟩ ⟨first', second'⟩ same
    obtain ⟨firsts, seconds⟩ := Prod.mk.inj same
    exact Prod.ext (UInt32.add_left_inj _ |>.mp firsts) (UInt32.add_left_inj _ |>.mp seconds)
  have rounds := @foldl_injective Pair Nat (fun count i => inject key ((rotations i).foldl mix count) i)
    (fun i => (inject_injective key i).comp (foldl_injective mix_injective (rotations i))) (List.range 5)
  intro first second same
  rw [threefry2x32, threefry2x32] at same
  exact start (rounds same)

end Bijection

section Plan

variable {Out : Type} (machine : Machine Out) {n : Nat} {key : Pair}

/-- A counter is hashed, and its words are stored to one or two places. -/
structure Call where
  counter : Pair
  first : Nat
  second : Option Nat

/-- The call for a place of the front half. -/
def frontCall (n i : Nat) : Call :=
  ⟨(UInt32.ofNat i, UInt32.ofNat (n / 2 + n % 2 + i)), i, some (n / 2 + n % 2 + i)⟩

def middleCall (n : Nat) : Call := ⟨(UInt32.ofNat (n / 2), 0), n / 2, none⟩

/-- All calls of a run, in their order. -/
def plan (n : Nat) : List Call :=
  (List.range (n / 2)).map (frontCall n) ++ if n % 2 = 0 then [] else [middleCall n]

def perform (out : Out) (call : Call) : Except Stop Out := do
  let (rb, out) := machine.hash call.counter out
  let out ← machine.store call.first rb.1 out
  match call.second with
  | none => .ok out
  | some place => machine.store place rb.2 out

theorem toNat_ofNat {i : Nat} (small : n < 2 ^ 32) (below : i ≤ n) : (UInt32.ofNat i).toNat = i :=
  UInt32.toNat_ofNat_of_lt' (Nat.lt_of_le_of_lt below small)

theorem ofNat_add_one (i : Nat) : UInt32.ofNat i + 1 = UInt32.ofNat (i + 1) := (UInt32.ofNat_add i 1).symm

/-- The loop makes all calls of the front half but the last one. -/
theorem pairs_eq (small : n < 2 ^ 32) {count i fuel : Nat} (rest : i + count + 1 = n / 2) (enough : count < fuel)
    (out : Out) : pairs machine (n / 2) fuel (UInt32.ofNat i) (UInt32.ofNat (n / 2 + n % 2 + i)) out = (do
      let out ← ((List.range' i count).map (frontCall n)).foldlM (perform machine) out
      return (UInt32.ofNat (i + count), UInt32.ofNat (n / 2 + n % 2 + (i + count)), out)) := by
  induction count generalizing i fuel out with
  | zero =>
      obtain ⟨fuel, rfl⟩ : ∃ less, fuel = less + 1 := ⟨fuel - 1, by omega⟩
      rw [pairs, if_neg (by rw [toNat_ofNat small (by omega)]; omega)]
      rfl
  | succ count ih =>
      obtain ⟨fuel, rfl⟩ : ∃ less, fuel = less + 1 := ⟨fuel - 1, by omega⟩
      have here : (UInt32.ofNat i).toNat = i := toNat_ofNat small (by omega)
      have there : (UInt32.ofNat (n / 2 + n % 2 + i)).toNat = n / 2 + n % 2 + i := toNat_ofNat small (by omega)
      have next := @ih (i + 1) fuel (by omega) (by omega)
      have place : i + (count + 1) = i + 1 + count := by omega
      rw [pairs, here, there, if_pos (by omega), range'_succ, map_cons, foldlM_cons, ofNat_add_one,
        ofNat_add_one, Nat.add_assoc (n / 2 + n % 2) i 1, place]
      simp only [perform, frontCall, bind_assoc, next]

/-- The control flow makes the calls of the plan. -/
theorem fill_eq (small : n < 2 ^ 32) (out : Out) : fill machine n out = (plan n).foldlM (perform machine) out := by
  have odd : (UInt32.ofNat (n / 2) + if n % 2 = 0 then 0 else 1) = UInt32.ofNat (n / 2 + n % 2) := by
    rcases Nat.mod_two_eq_zero_or_one n with even | odd
    · rw [if_pos even, even]
      exact UInt32.add_zero _
    · rw [if_neg (by omega), odd]
      exact ofNat_add_one _
  have last (out : Out) : middle machine n out =
      (if n % 2 = 0 then [] else [middleCall n]).foldlM (perform machine) out := by
    rw [middle]
    split
    · rfl
    · have inside : n / 2 < n := by omega
      simp only [foldlM_cons, foldlM_nil, perform, middleCall, if_pos inside]
      cases machine.store _ _ _ <;> rfl
  rw [fill, odd, plan, foldlM_append]
  by_cases none : n / 2 = 0
  · rw [none, pairs, if_neg (by rw [UInt32.toNat_ofNat]; omega)]
    change (do let out ← lastPair machine n 0 _ out; middle machine n out) = _
    rw [lastPair, if_neg (by rw [UInt32.toNat_zero]; omega)]
    exact last out
  · have loop := @pairs_eq Out machine n small (n / 2 - 1) 0 (n + 1) (by omega) (by omega) out
    rw [Nat.add_zero] at loop
    have size : n / 2 = n / 2 - 1 + 1 := by omega
    have front : List.range (n / 2) = List.range' 0 (n / 2 - 1) ++ [n / 2 - 1] := by
      rw [size, range_eq_range', range'_1_concat, Nat.add_sub_cancel, Nat.zero_add]
    change (pairs machine (n / 2) (n + 1) (UInt32.ofNat 0) (UInt32.ofNat (n / 2 + n % 2 + 0)) out >>= _) = _
    rw [loop, front, map_append, foldlM_append, Nat.zero_add]
    simp only [bind_assoc, pure_bind]
    congr 1
    funext out
    have here : (UInt32.ofNat (n / 2 - 1)).toNat = n / 2 - 1 := toNat_ofNat small (by omega)
    have there : (UInt32.ofNat (n / 2 + n % 2 + (n / 2 - 1))).toNat = n / 2 + n % 2 + (n / 2 - 1) :=
      toNat_ofNat small (by omega)
    have inside : n / 2 + n % 2 + (n / 2 - 1) < n := by omega
    rw [lastPair, here, there, if_pos (by omega)]
    simp only [map_cons, map_nil, foldlM_cons, foldlM_nil, perform, frontCall, last, if_pos inside,
      bind_pure]

end Plan

section Words

variable {n : Nat} {key : Pair}

def Call.places (call : Call) : List Nat := call.first :: call.second.toList

/-- The words of a hashed counter with their places. -/
def Call.writes (key : Pair) (call : Call) : List (Nat × UInt32) :=
  (call.first, (threefry2x32 key call.counter).1) ::
    call.second.toList.map fun place => (place, (threefry2x32 key call.counter).2)

theorem writes_places (key : Pair) (calls : List Call) :
    (calls.flatMap (Call.writes key)).map Prod.fst = calls.flatMap Call.places := by
  rw [map_flatMap]
  congr 1
  funext call
  rw [Call.writes, Call.places, map_cons, map_map]
  exact congrArg (call.first :: ·) (map_id _)

theorem foldlM_words (calls : List Call) (out : List UInt32) :
    calls.foldlM (perform ⟨fun count out => (threefry2x32 key count, out), setAt .panic⟩) out =
      writeAll Stop.panic (calls.flatMap (Call.writes key)) out := by
  induction calls generalizing out with
  | nil => rfl
  | cons call calls ih =>
      rw [foldlM_cons, flatMap_cons, writeAll, foldlM_append]
      simp only [ih, writeAll, perform, Call.writes, foldlM_cons]
      cases setAt Stop.panic call.first (threefry2x32 key call.counter).1 out with
      | error stop => cases call.second <;> rfl
      | ok stored =>
          cases call.second with
          | none => rfl
          | some place =>
              rw [Option.toList_some, map_singleton]
              simp only [bind, Except.bind, foldlM_cons]
              cases setAt Stop.panic place (threefry2x32 key call.counter).2 stored <;> rfl

theorem foldlM_log (calls : List Call) (log : Log) : calls.foldlM (perform ⟨fun count log => (threefry2x32 key count,
      { log with counters := log.counters ++ [count] }),
      fun place _ log => .ok { log with places := log.places ++ [place] }⟩) log =
        .ok ⟨log.counters ++ calls.map Call.counter, log.places ++ calls.flatMap Call.places⟩ := by
  induction calls generalizing log with
  | nil => simp [pure, Except.pure]
  | cons call calls ih =>
      rw [foldlM_cons, flatMap_cons, map_cons]
      simp only [perform, Call.places, ih]
      cases call.second with
      | none => simp [bind, Except.bind]
      | some place => simp [bind, Except.bind]

theorem frontCall_planned {i : Nat} (front : i < n / 2) : frontCall n i ∈ plan n :=
  mem_append_left _ (mem_map_of_mem (mem_range.mpr front))

theorem middleCall_planned (odd : n % 2 = 1) : middleCall n ∈ plan n := by
  rw [plan, if_neg (by omega)]
  exact mem_append_right _ mem_cons_self

/-- The plan stores to every place once. -/
theorem plan_places (n : Nat) : ((plan n).flatMap Call.places).Perm (List.range n) := by
  apply all_places
  · intro place inside
    rw [mem_flatMap]
    by_cases front : place < n / 2
    · exact ⟨_, frontCall_planned front, mem_cons_self⟩
    · by_cases center : place = n / 2 ∧ n % 2 = 1
      · exact ⟨_, middleCall_planned center.2, by rw [center.1]; exact mem_cons_self⟩
      · have back : n / 2 + n % 2 + (place - (n / 2 + n % 2)) = place := by omega
        refine ⟨_, @frontCall_planned n (place - (n / 2 + n % 2)) (by omega), ?_⟩
        simp [frontCall, Call.places, back]
  · have two : ∀ i ∈ List.range (n / 2), (frontCall n i).places.length = 2 := fun _ _ => rfl
    rw [plan, flatMap_append, length_append, flatMap_map, length_flatMap,
      map_congr_left two, map_const', sum_replicate_nat, length_range]
    split
    · rw [flatMap_nil, length_nil]
      omega
    · rw [flatMap_singleton]
      change _ + 1 = n
      omega

/-- The plan hashes no counter twice. -/
theorem plan_counters (small : n < 2 ^ 32) : ((plan n).map Call.counter).Nodup := by
  have apart {i j : Nat} (left : i ≤ n) (right : j ≤ n) (same : UInt32.ofNat i = UInt32.ofNat j) : i = j := by
    rw [← toNat_ofNat small left, same, toNat_ofNat small right]
  have front : ((List.range (n / 2)).map fun i => (frontCall n i).counter).Nodup := by
    rw [nodup_map_iff_inj_on nodup_range]
    intro i inside j inside' same
    rw [mem_range] at inside inside'
    exact apart (by omega) (by omega) (congrArg Prod.fst same)
  rw [plan, map_append, map_map]
  apply front.append
  · split
    · exact nodup_nil
    · exact nodup_singleton _
  · intro counter early late
    split at late
    case isTrue => exact absurd late not_mem_nil
    case isFalse =>
      obtain ⟨i, inside, rfl⟩ := mem_map.mp early
      have same := mem_singleton.mp late
      rw [mem_range] at inside
      have equal := apart (by omega) (by omega) (congrArg Prod.fst same)
      omega

/-- Every element is written once, from a counter of its own, and the hash is a bijection of the counters. -/
theorem randomBits_exact (key : Pair) (n : Nat) (small : n < 2 ^ 32) :
    (∃ out, randomBits n key = .ok out ∧ out.length = n ∧ (∀ i < n / 2,
        out[i]? = some (threefry2x32 key (UInt32.ofNat i, UInt32.ofNat (n / 2 + n % 2 + i))).1 ∧
        out[n / 2 + n % 2 + i]? = some (threefry2x32 key (UInt32.ofNat i, UInt32.ofNat (n / 2 + n % 2 + i))).2) ∧
      (n % 2 = 1 → out[n / 2]? = some (threefry2x32 key (UInt32.ofNat (n / 2), 0)).1)) ∧
    (∃ log, logged n key = .ok log ∧ log.places.Perm (List.range n) ∧ log.counters.Nodup) ∧
    Function.Bijective (threefry2x32 key) := by
  refine ⟨⟨scatter ((plan n).flatMap (Call.writes key)) (List.replicate n 0), ?_, ?_, ?_⟩,
    ⟨⟨(plan n).map Call.counter, (plan n).flatMap Call.places⟩, ?_, plan_places n, plan_counters small⟩,
    threefry2x32_bijective key⟩
  · have inside : ∀ write ∈ (plan n).flatMap (Call.writes key), write.1 < (List.replicate n (0 : UInt32)).length := by
      intro write member
      rw [length_replicate, ← mem_range]
      apply (plan_places n).mem_iff.mp
      rw [← writes_places key]
      exact mem_map_of_mem member
    rw [randomBits]
    split
    case isTrue none =>
      subst none
      rfl
    case isFalse => rw [fill_eq _ small, foldlM_words, writeAll_inside inside]
  · rw [length_scatter, length_replicate]
  · have once : (((plan n).flatMap (Call.writes key)).map Prod.fst).Nodup := by
      rw [writes_places]
      exact (plan_places n).nodup_iff.mpr nodup_range
    have read {call : Call} (planned : call ∈ plan n) {place : Nat} {word : UInt32} (inside : place < n)
        (member : (place, word) ∈ call.writes key) :
        (scatter ((plan n).flatMap (Call.writes key)) (List.replicate n 0))[place]? = some word :=
      getElem?_scatter once (mem_flatMap.mpr ⟨call, planned, member⟩) (by rwa [length_replicate])
    constructor
    · intro i front
      refine ⟨read (frontCall_planned front) (by omega) mem_cons_self, ?_⟩
      exact read (frontCall_planned front) (by omega) (mem_cons_of_mem _ mem_cons_self)
    · intro odd
      exact read (middleCall_planned odd) (by omega) mem_cons_self
  · rw [logged]
    split
    case isTrue none =>
      subst none
      rfl
    case isFalse => rw [fill_eq _ small, foldlM_log, nil_append, nil_append]

/-- Five elements have a middle one. -/
theorem randomBits_five : (∃ out, randomBits 5 (0, 42) = .ok out ∧ out.length = 5 ∧ (∀ i < 5 / 2,
        out[i]? = some (threefry2x32 (0, 42) (UInt32.ofNat i, UInt32.ofNat (5 / 2 + 5 % 2 + i))).1 ∧
        out[5 / 2 + 5 % 2 + i]? = some (threefry2x32 (0, 42) (UInt32.ofNat i, UInt32.ofNat (5 / 2 + 5 % 2 + i))).2) ∧
      (5 % 2 = 1 → out[5 / 2]? = some (threefry2x32 (0, 42) (UInt32.ofNat (5 / 2), 0)).1)) ∧
    (∃ log, logged 5 (0, 42) = .ok log ∧ log.places.Perm (List.range 5) ∧ log.counters.Nodup) ∧
    Function.Bijective (threefry2x32 (0, 42)) := randomBits_exact (0, 42) 5 (by decide)

end Words

end Pictor.MlxRng
