import Pictor.Construction.Attention.SlidingWindow
import Mathlib.Data.List.DropRight

namespace Pictor.AttentionSink
open Slice List

variable {Value : Type} {Element : Type}

theorem length_rtake (count : Nat) (elements : List Element) :
    (elements.rtake count).length = min count elements.length := by
  rw [List.rtake, length_drop]
  omega

/-- The newest elements without the oldest of them. -/
theorem tail_rtake {count : Nat} {elements : List Element} (enough : count < elements.length) :
    (elements.rtake (count + 1)).tail = elements.rtake count := by
  rw [List.rtake, List.rtake, tail_drop]
  congr 1
  omega

/-- A push of the accepted shape. -/
structure Token (Value : Type) where
  keys : List Value
  values : List Value

def Token.Fits (numHeads headDim : Nat) (token : Token Value) : Prop :=
  token.keys.length = numHeads * headDim ∧ token.values.length = numHeads * headDim

instance (numHeads headDim : Nat) (token : Token Value) : Decidable (token.Fits numHeads headDim) :=
  inferInstanceAs (Decidable (_ ∧ _))

/-- The slots of one head for each token, in the order of the pushes. -/
def slots (headDim head : Nat) (tokens : List (Token Value)) : List (SinkSlot Value) :=
  tokens.mapIdx fun pos token =>
    ⟨pos, AttentionSinkLayer.headSlice token.keys head headDim,
      AttentionSinkLayer.headSlice token.values head headDim⟩

@[simp] theorem length_slots (headDim head : Nat) (tokens : List (Token Value)) :
    (slots headDim head tokens).length = tokens.length := length_mapIdx

theorem slots_concat (headDim head : Nat) (tokens : List (Token Value)) (token : Token Value) :
    slots headDim head (tokens ++ [token]) = slots headDim head tokens ++
      [⟨tokens.length, AttentionSinkLayer.headSlice token.keys head headDim,
        AttentionSinkLayer.headSlice token.values head headDim⟩] := mapIdx_concat

namespace AttentionSinkLayer

/-- A sequence of pushes; one that fails leaves the layer. -/
def run (layer : AttentionSinkLayer Value) : List (Token Value) → AttentionSinkLayer Value
  | [] => layer
  | token :: tokens =>
      match layer.push token.keys token.values with
      | .error _ => run layer tokens
      | .ok next => run next tokens

/-- What a layer holds after its tokens: the recent buffer keeps one token even if the window is empty. -/
structure Holds (config : AttentionSinkConfig) (numHeads headDim : Nat) (tokens : List (Token Value))
    (layer : AttentionSinkLayer Value) : Prop where
  sameConfig : layer.config = config
  sameDim : layer.headDim = headDim
  sameHeads : layer.numHeads = numHeads
  total : layer.totalTokens = tokens.length
  sinkHeads : layer.sinks.length = numHeads
  recentHeads : layer.recent.length = numHeads
  sinks : ∀ head < numHeads,
    layer.sinks.getD head [] = (slots headDim head tokens).take config.numSinkTokens
  recent : ∀ head < numHeads,
    layer.recent.getD head [] =
      ((slots headDim head tokens).drop config.numSinkTokens).rtake (max config.windowSize 1)
  evicted : layer.evicted = if numHeads = 0 then 0 else tokens.length - config.numSinkTokens - config.windowSize

variable {config : AttentionSinkConfig} {numHeads headDim : Nat} {tokens : List (Token Value)}
  {layer : AttentionSinkLayer Value} {Element : Type}

theorem getD_replicate_nil (count index : Nat) : (List.replicate count ([] : List Element)).getD index [] = [] := by
  rw [getD_eq_getElem?_getD, getElem?_replicate]
  split <;> rfl

theorem Holds.new (config : AttentionSinkConfig) (numHeads headDim : Nat) :
    Holds config numHeads headDim [] (AttentionSinkLayer.new config numHeads headDim : AttentionSinkLayer Value) where
  sameConfig := rfl
  sameDim := rfl
  sameHeads := rfl
  total := rfl
  sinkHeads := length_replicate
  recentHeads := length_replicate
  sinks head inside := by
    rw [AttentionSinkLayer.new, getD_replicate_nil, slots, mapIdx_nil, take_nil]
  recent head inside := by
    rw [AttentionSinkLayer.new, getD_replicate_nil, slots, mapIdx_nil, drop_nil, rtake_nil]
  evicted := by
    rw [length_nil, Nat.zero_sub, Nat.zero_sub, ite_self]
    rfl

theorem getD_modify (elements : List Element) (change : Element → Element) (default : Element) (index other : Nat) :
    (elements.modify index change).getD other default =
      if index = other ∧ other < elements.length then change (elements.getD other default)
      else elements.getD other default := by
  rw [getD_eq_getElem?_getD, getElem?_modify, getD_eq_getElem?_getD]
  by_cases inside : other < elements.length
  · by_cases same : index = other <;> simp [inside, same]
  · simp [inside]

/-- The recent buffer of a head after one more token. -/
def shifted (window : Nat) (buffer : List (SinkSlot Value)) (slot : SinkSlot Value) : List (SinkSlot Value) :=
  (if window ≤ buffer.length then buffer.tail else buffer) ++ [slot]

/-- The state of the loop of a push before some head. -/
structure Passed (layer : AttentionSinkLayer Value) (token : Token Value) (count : Nat)
    (passed : AttentionSinkLayer Value) : Prop where
  sameConfig : passed.config = layer.config
  sameDim : passed.headDim = layer.headDim
  sameHeads : passed.numHeads = layer.numHeads
  sinkHeads : passed.sinks.length = layer.sinks.length
  recentHeads : passed.recent.length = layer.recent.length
  sinks : ∀ head < layer.sinks.length, passed.sinks.getD head [] =
    if head < count ∧ layer.totalTokens < layer.config.numSinkTokens then
      layer.sinks.getD head [] ++ [⟨layer.totalTokens, headSlice token.keys head layer.headDim,
        headSlice token.values head layer.headDim⟩]
    else layer.sinks.getD head []
  recent : ∀ head < layer.recent.length, passed.recent.getD head [] =
    if head < count ∧ ¬ layer.totalTokens < layer.config.numSinkTokens then
      shifted layer.config.windowSize (layer.recent.getD head [])
        ⟨layer.totalTokens, headSlice token.keys head layer.headDim, headSlice token.values head layer.headDim⟩
    else layer.recent.getD head []
  evicted : passed.evicted =
    if 0 < count ∧ ¬ layer.totalTokens < layer.config.numSinkTokens ∧
        layer.config.windowSize ≤ (layer.recent.getD 0 []).length then layer.evicted + 1
    else layer.evicted

theorem Passed.pushHead {token : Token Value} {count : Nat} {passed : AttentionSinkLayer Value}
    (before : Passed layer token count passed) (inside : count < layer.recent.length) : Passed layer token (count + 1)
      (AttentionSinkLayer.pushHead token.keys token.values layer.totalTokens passed count) := by
  have here := before.recent count inside
  rw [if_neg (by omega)] at here
  rw [AttentionSinkLayer.pushHead, before.sameConfig, before.sameDim]
  dsimp only
  by_cases sink : layer.totalTokens < layer.config.numSinkTokens
  · rw [if_pos sink]
    refine ⟨rfl, rfl, before.sameHeads, by rw [length_modify, before.sinkHeads],
      before.recentHeads, fun head present => ?_, fun head present => ?_, ?_⟩
    · rw [getD_modify, before.sinkHeads, before.sinks head present]
      by_cases same : count = head
      · subst same
        simp [sink, present]
      · have early : head < count + 1 ↔ head < count := by omega
        simp [same, early]
    · rw [before.recent head present]
      simp [sink]
    · rw [before.evicted]
      simp [sink]
  · rw [if_neg sink]
    refine ⟨rfl, rfl, before.sameHeads, before.sinkHeads, ?_, fun head present => ?_,
      fun head present => ?_, ?_⟩
    · rw [length_modify, ← before.recentHeads]
      split
      case isTrue => exact length_modify ..
      case isFalse => rfl
    · rw [before.sinks head present]
      simp [sink]
    · rw [here, getD_modify]
      by_cases same : count = head
      · subst same
        by_cases full : layer.config.windowSize ≤ (layer.recent.getD count []).length
        · rw [if_pos full, length_modify, before.recentHeads, getD_modify, before.recentHeads, here,
            if_pos ⟨rfl, present⟩, if_pos ⟨rfl, present⟩, if_pos ⟨Nat.lt_succ_self _, sink⟩, shifted, if_pos full]
        · rw [if_neg full, before.recentHeads, here, if_pos ⟨rfl, present⟩, if_pos ⟨Nat.lt_succ_self _, sink⟩,
            shifted, if_neg full]
      · have early : head < count + 1 ↔ head < count := by omega
        have kept : ∀ full : Prop, ∀ [Decidable full],
            (if full then passed.recent.modify count List.tail else passed.recent).getD head [] =
              passed.recent.getD head [] := by
          intro full _
          split
          case isTrue => rw [getD_modify, if_neg fun both => same both.1]
          case isFalse => rfl
        rw [if_neg fun both => same both.1, kept, before.recent head present]
        simp only [early]
    · rw [here, before.evicted]
      by_cases first : count = 0
      · subst first
        simp [sink]
      · have positive : 0 < count := by omega
        simp [sink, first, positive]

theorem Passed.fold (layer : AttentionSinkLayer Value) (token : Token Value) (count : Nat)
    (inside : count ≤ layer.recent.length) : Passed layer token count
      ((List.range count).foldl (AttentionSinkLayer.pushHead token.keys token.values layer.totalTokens) layer) := by
  induction count with
  | zero =>
      refine ⟨rfl, rfl, rfl, rfl, rfl, fun head _ => ?_, fun head _ => ?_, ?_⟩
      · rw [if_neg fun both => absurd both.1 (Nat.not_lt_zero _)]
        rfl
      · rw [if_neg fun both => absurd both.1 (Nat.not_lt_zero _)]
        rfl
      · rw [if_neg fun both => absurd both.1 (Nat.not_lt_zero _)]
        rfl
  | succ count ih =>
      rw [List.range_succ, foldl_append]
      exact (ih (Nat.le_of_succ_le inside)).pushHead inside

/-- A full buffer moves by one token, and an empty window still keeps the newest one. -/
theorem shifted_rtake (window : Nat) (others : List (SinkSlot Value)) (slot : SinkSlot Value) :
    shifted window (others.rtake (max window 1)) slot = (others ++ [slot]).rtake (max window 1) := by
  obtain ⟨size, positive⟩ : ∃ size, max window 1 = size + 1 := ⟨max window 1 - 1, by omega⟩
  rw [shifted, positive, rtake_concat_succ, length_rtake]
  congr 1
  by_cases enough : size < others.length
  · rw [if_pos (by omega), tail_rtake enough]
  · have short : others.rtake (size + 1) = others := by
      rw [List.rtake, Nat.sub_eq_zero_of_le (by omega), drop_zero]
    have short' : others.rtake size = others := by
      rw [List.rtake, Nat.sub_eq_zero_of_le (by omega), drop_zero]
    rw [short, short']
    split
    case isFalse => rfl
    case isTrue full =>
      have empty : others = [] := length_eq_zero_iff.mp (by omega)
      rw [empty, tail_nil]

variable (holds : Holds config numHeads headDim tokens layer)
include holds

/-- A token of the accepted shape is pushed. -/
theorem Holds.push {token : Token Value} (fits : token.Fits numHeads headDim) :
    ∃ next, layer.push token.keys token.values = .ok next ∧
      Holds config numHeads headDim (tokens ++ [token]) next := by
  have passed := Passed.fold layer token numHeads (Nat.le_of_eq holds.recentHeads.symm)
  refine ⟨_, by rw [AttentionSinkLayer.push, holds.sameHeads, holds.sameDim, if_neg (not_not.mpr fits.1),
    if_neg (not_not.mpr fits.2)], ?_⟩
  refine ⟨passed.sameConfig.trans holds.sameConfig, passed.sameDim.trans holds.sameDim,
    passed.sameHeads.trans holds.sameHeads, ?_, passed.sinkHeads.trans holds.sinkHeads,
    passed.recentHeads.trans holds.recentHeads, fun head inside => ?_, fun head inside => ?_, ?_⟩
  · rw [length_append, length_singleton, ← holds.total]
  · refine (passed.sinks head (inside.trans_eq holds.sinkHeads.symm)).trans ?_
    rw [holds.sinks head inside, holds.total, holds.sameConfig, holds.sameDim, slots_concat]
    by_cases sink : tokens.length < config.numSinkTokens
    · rw [if_pos ⟨inside, sink⟩, take_of_length_le (by simp; omega), take_of_length_le (by simp; omega)]
    · rw [if_neg fun both => sink both.2, take_append_of_le_length (by simp; omega)]
  · refine (passed.recent head (inside.trans_eq holds.recentHeads.symm)).trans ?_
    rw [holds.recent head inside, holds.total, holds.sameConfig, holds.sameDim, slots_concat]
    by_cases sink : tokens.length < config.numSinkTokens
    · rw [if_neg fun both => both.2 sink, drop_of_length_le (by simp; omega),
        drop_of_length_le (by simp; omega)]
    · rw [if_pos ⟨inside, sink⟩, shifted_rtake, drop_append_of_le_length (by simp; omega)]
  · refine passed.evicted.trans ?_
    rw [holds.total, holds.sameConfig, holds.evicted, length_append, length_singleton]
    by_cases none : numHeads = 0
    · rw [if_neg (by omega), if_pos none, if_pos none]
    · have full := holds.recent 0 (Nat.pos_of_ne_zero none)
      rw [full, length_rtake, length_drop, length_slots, if_neg none, if_neg none]
      split <;> omega

/-- A token of another shape is refused. -/
theorem Holds.refused {token : Token Value} (misfit : ¬ token.Fits numHeads headDim) :
    ∃ error, layer.push token.keys token.values = .error error := by
  rw [AttentionSinkLayer.push, holds.sameHeads, holds.sameDim]
  by_cases short : token.keys.length = numHeads * headDim
  · exact ⟨_, by rw [if_neg (not_not.mpr short), if_pos fun full => misfit ⟨short, full⟩]⟩
  · exact ⟨_, by rw [if_pos short]⟩

/-- The layer after a sequence of pushes holds what its accepted tokens leave. -/
theorem Holds.run (pushes : List (Token Value)) :
    Holds config numHeads headDim (tokens ++ pushes.filter fun token => token.Fits numHeads headDim) (layer.run pushes) := by
  induction pushes generalizing tokens layer with
  | nil =>
      rw [filter_nil, append_nil]
      exact holds
  | cons token pushes ih =>
      rw [AttentionSinkLayer.run]
      by_cases fits : token.Fits numHeads headDim
      · obtain ⟨next, pushed, holds'⟩ := holds.push fits
        rw [pushed, filter_cons, if_pos (decide_eq_true fits), append_cons]
        exact ih holds'
      · obtain ⟨error, refused⟩ := holds.refused fits
        rw [refused, filter_cons, if_neg (by simpa using fits)]
        exact ih holds

omit holds

/-- The tokens a head keeps: the sinks, and behind them the newest of the others. -/
def kept (config : AttentionSinkConfig) (slots : List (SinkSlot Value)) : List (SinkSlot Value) :=
  slots.take config.numSinkTokens ++ (slots.drop config.numSinkTokens).rtake config.windowSize

/-- What the layer promises after its tokens. -/
structure KeepsSinksAndWindow (numHeads headDim : Nat) (config : AttentionSinkConfig) (tokens : List (Token Value))
    (layer : AttentionSinkLayer Value) : Prop where
  sinks : ∀ head < numHeads, layer.sinks[head]? = some ((slots headDim head tokens).take config.numSinkTokens)
  recent : ∀ head < numHeads, layer.recent[head]? =
    some (((slots headDim head tokens).drop config.numSinkTokens).rtake config.windowSize)
  bounded : layer.cacheLen ≤ config.numSinkTokens + config.windowSize
  evicted : layer.evictedCount + layer.cacheLen = tokens.length
  positions : layer.getRemappedPositions = List.range layer.cacheLen
  keys : ∀ head < numHeads,
    layer.getKeysForHead head = .ok ((kept config (slots headDim head tokens)).flatMap SinkSlot.key)
  values : ∀ head < numHeads,
    layer.getValuesForHead head = .ok ((kept config (slots headDim head tokens)).flatMap SinkSlot.value)

theorem firstLength_eq (heads : List (List (SinkSlot Value))) : firstLength heads = (heads.getD 0 []).length := by
  cases heads <;> rfl

theorem getElem?_of_getD {elements : List Element} {default element : Element} {index : Nat}
    (inside : index < elements.length) (found : elements.getD index default = element) :
    elements[index]? = some element := by
  rw [getElem?_getD default inside, found]

theorem remapped_eq (layer : AttentionSinkLayer Value) : layer.getRemappedPositions = List.range layer.cacheLen := by
  rw [getRemappedPositions, cacheLen, range_add]

theorem Holds.cacheLen_eq (holds : Holds config numHeads headDim tokens layer) (heads : 0 < numHeads) :
    layer.cacheLen = min config.numSinkTokens tokens.length +
      min (max config.windowSize 1) (tokens.length - config.numSinkTokens) := by
  rw [cacheLen, firstLength_eq, firstLength_eq, holds.sinks 0 heads, holds.recent 0 heads, length_take,
    length_rtake, length_drop, length_slots]

/-- A window that is not empty, or not yet needed, keeps what the layer promises. -/
theorem Holds.keeps (holds : Holds config numHeads headDim tokens layer) (heads : 0 < numHeads)
    (room : tokens.length ≤ config.numSinkTokens ∨ 0 < config.windowSize) :
    KeepsSinksAndWindow numHeads headDim config tokens layer := by
  have recent : ∀ head < numHeads, layer.recent.getD head [] =
      ((slots headDim head tokens).drop config.numSinkTokens).rtake config.windowSize := by
    intro head inside
    rw [holds.recent head inside]
    rcases room with short | positive
    · rw [drop_of_length_le (by simpa using short), rtake_nil, rtake_nil]
    · rw [Nat.max_eq_left positive]
  have counted := holds.cacheLen_eq heads
  have read : ∀ (part : SinkSlot Value → List Value), ∀ head < numHeads,
      layer.getForHead part head = .ok ((kept config (slots headDim head tokens)).flatMap part) := by
    intro part head inside
    rw [getForHead, holds.sameHeads, if_neg (Nat.not_le.mpr inside), holds.sinks head inside, recent head inside,
      kept, flatMap_append]
  refine ⟨fun head inside => getElem?_of_getD (inside.trans_eq holds.sinkHeads.symm) (holds.sinks head inside),
    fun head inside => getElem?_of_getD (inside.trans_eq holds.recentHeads.symm) (recent head inside), ?_, ?_,
    remapped_eq layer, read _, read _⟩
  · omega
  · rw [evictedCount, holds.evicted, if_neg (Nat.ne_of_gt heads), counted]
    omega

/-- Without a head nothing is held and nothing is counted. -/
theorem Holds.headless (holds : Holds config 0 headDim tokens layer) : layer.evictedCount + layer.cacheLen = 0 := by
  rw [evictedCount, cacheLen, holds.evicted, if_pos rfl, length_eq_zero_iff.mp holds.sinkHeads,
    length_eq_zero_iff.mp holds.recentHeads]
  rfl

/-- A layer keeps its promise after a sequence of pushes exactly if nothing was pushed, or it has a head,
    and no token is beyond the sinks or the window is not empty. -/
theorem keepsSinksAndWindow_iff (config : AttentionSinkConfig) (numHeads headDim : Nat) (pushes : List (Token Value)) :
    KeepsSinksAndWindow numHeads headDim config (pushes.filter fun token => token.Fits numHeads headDim)
        ((AttentionSinkLayer.new config numHeads headDim).run pushes) ↔
      (pushes.filter fun token => token.Fits numHeads headDim) = [] ∨
        0 < numHeads ∧ ((pushes.filter fun token => token.Fits numHeads headDim).length ≤ config.numSinkTokens ∨
          0 < config.windowSize) := by
  have holds := (Holds.new config numHeads headDim).run pushes
  rw [nil_append] at holds
  generalize (pushes.filter fun token => token.Fits numHeads headDim) = tokens at holds ⊢
  generalize (AttentionSinkLayer.new config numHeads headDim).run pushes = layer at holds
  constructor
  · intro keeps
    by_cases none : numHeads = 0
    · subst none
      have counted := keeps.evicted
      rw [holds.headless] at counted
      exact .inl (length_eq_zero_iff.mp counted.symm)
    · refine .inr ⟨Nat.pos_of_ne_zero none, ?_⟩
      by_contra! full
      obtain ⟨beyond, empty⟩ := full
      have heads := Nat.pos_of_ne_zero none
      have bound := keeps.bounded
      rw [holds.cacheLen_eq heads] at bound
      omega
  · rintro (rfl | ⟨heads, room⟩)
    · by_cases none : numHeads = 0
      · subst none
        have counted := holds.headless
        refine ⟨nofun, nofun, by omega, counted, remapped_eq layer, nofun, nofun⟩
      · exact holds.keeps (Nat.pos_of_ne_zero none) (.inl (Nat.zero_le _))
    · exact holds.keeps heads room

/-- An empty window keeps the newest token. -/
theorem keepsSinksAndWindow_gap : ¬ KeepsSinksAndWindow 1 1 ⟨0, 0⟩ ([⟨[7], [8]⟩] : List (Token Nat))
      ((AttentionSinkLayer.new ⟨0, 0⟩ 1 1).run [⟨[7], [8]⟩]) :=
  fun keeps => absurd keeps.bounded (by decide)

end AttentionSinkLayer

end Pictor.AttentionSink
