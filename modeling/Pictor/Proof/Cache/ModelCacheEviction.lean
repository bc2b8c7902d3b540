import Pictor.Construction.Cache.ModelCache

namespace Pictor.ModelCache
open List List

variable {Config : Type}

/-- A model of a cache under its key. -/
abbrev Item (Config : Type) := Sigma fun _ : String => ModelEntry Config

/-- The models are ordered from the least recently used one on. -/
def LruOrder (now : Nat) (items lru : List (Item Config)) : Prop :=
  lru.Perm items ∧ lru.Pairwise fun first second => second.2.idleMicros now ≤ first.2.idleMicros now

/-- The budget that a configuration enforces. -/
def enforcedBudget (config : ModelCacheConfig) : Option Nat :=
  if config.evictOnMemoryPressure then config.memoryBudgetBytes else none

/-- The models and the incoming one fit a budget. -/
def FitsBudget (config : ModelCacheConfig) (incomingBytes : Nat) (items : List (Item Config)) : Prop :=
  ∀ budget, enforcedBudget config = some budget →
    (items.map fun item => item.2.memoryBytes).sum + incomingBytes ≤ budget

/-- A slot is left, and the memory fits or no model is left. -/
def Enough (config : ModelCacheConfig) (incomingBytes : Nat) (items : List (Item Config)) : Prop :=
  items = [] ∨ items.length < config.maxModels ∧ FitsBudget config incomingBytes items

/-- The models that are kept are all but the shortest prefix of the order that has to go. -/
def EvictsExactly (config : ModelCacheConfig) (now incomingBytes : Nat) (before kept : List (Item Config)) : Prop :=
  ∃ lru count, LruOrder now before lru ∧ kept.Perm (lru.drop count) ∧ Enough config incomingBytes (lru.drop count) ∧
    ∀ fewer < count, ¬ Enough config incomingBytes (lru.drop fewer)

section MaxByKey

variable {Element : Type} {key : Element → Nat}

theorem foldl_max (items : List Element) (item : Element) :
    items.foldl (fun best next => if key next < key best then best else next) item ∈ item :: items ∧
      ∀ other ∈ item :: items,
        key other ≤ key (items.foldl (fun best next => if key next < key best then best else next) item) := by
  induction items generalizing item with
  | nil => simp
  | cons next items ih =>
      rw [foldl_cons]
      by_cases smaller : key next < key item
      · rw [if_pos smaller]
        obtain ⟨member, greatest⟩ := ih item
        have here := greatest item mem_cons_self
        refine ⟨?_, fun other present => ?_⟩
        · rcases mem_cons.mp member with same | behind
          · rw [same]
            exact mem_cons_self
          · exact mem_cons_of_mem _ (mem_cons_of_mem _ behind)
        · rcases mem_cons.mp present with same | present
          · rw [same]
            exact here
          · rcases mem_cons.mp present with same | present
            · rw [same]
              exact Nat.le_trans (Nat.le_of_lt smaller) here
            · exact greatest other (mem_cons_of_mem _ present)
      · rw [if_neg smaller]
        obtain ⟨member, greatest⟩ := ih next
        have here := greatest next mem_cons_self
        refine ⟨mem_cons_of_mem _ member, fun other present => ?_⟩
        rcases mem_cons.mp present with same | present
        · rw [same]
          exact Nat.le_trans (Nat.le_of_not_lt smaller) here
        · exact greatest other present

end MaxByKey

section EvictLru

variable (now : Nat) (entries : ModelEntries Config)

/-- An eviction removes a model that is idle for the longest time. -/
theorem evictLru_perm (some : entries.entries ≠ []) : ∃ item : Item Config,
    (∀ other ∈ entries.entries, other.2.idleMicros now ≤ item.2.idleMicros now) ∧
      entries.entries.Perm (item :: (evictLru now entries).entries) := by
  obtain ⟨first, rest, shape⟩ := exists_cons_of_ne_nil some
  obtain ⟨member, greatest⟩ := @foldl_max _ (fun item : Item Config => item.2.idleMicros now) rest first
  have chosen : maxByKey (fun item : Item Config => item.2.idleMicros now) entries.entries =
      Option.some (rest.foldl (fun best next => if next.2.idleMicros now < best.2.idleMicros now then best else next)
        first) := by
    rw [shape]
    rfl
  generalize rest.foldl (fun best next : Item Config =>
    if next.2.idleMicros now < best.2.idleMicros now then best else next) first = item at chosen member greatest
  rw [← shape] at member greatest
  refine ⟨item, greatest, ?_⟩
  have erased : evictLru now entries = entries.erase item.1 := by
    rw [evictLru, chosen]
  obtain ⟨value, before, after, _, split, removed⟩ :=
    exists_of_kerase (show item.1 ∈ entries.entries.keys from mem_map_of_mem member)
  have same : item = ⟨item.1, value⟩ := by
    have found : (⟨item.1, value⟩ : Item Config) ∈ entries.entries := by
      rw [split]
      exact mem_append_right _ mem_cons_self
    exact entries.nodupKeys.eq_of_fst_eq member found rfl
  rw [erased]
  change entries.entries.Perm (item :: entries.entries.kerase item.1)
  rw [removed, split, ← same]
  exact perm_middle

/-- The evictions one after another follow an order from the least recently used model on. -/
theorem evictLru_order : ∃ lru, LruOrder now entries.entries lru ∧
    ∀ count, ((evictLru now)^[count] entries).entries.Perm (lru.drop count) := by
  generalize size : entries.entries.length = length
  induction length generalizing entries with
  | zero =>
      have none : entries.entries = [] := length_eq_zero_iff.mp size
      refine ⟨[], ⟨none ▸ List.Perm.refl _, List.Pairwise.nil⟩, fun count => ?_⟩
      have fixed : evictLru now entries = entries := by
        rw [evictLru, none]
        rfl
      rw [Function.iterate_fixed fixed, none, drop_nil]
  | succ length ih =>
      have some : entries.entries ≠ [] := by
        intro none
        rw [none] at size
        cases size
      obtain ⟨item, greatest, removed⟩ := evictLru_perm now entries some
      have smaller : (evictLru now entries).entries.length = length := by
        have lengths := removed.length_eq
        rw [length_cons] at lengths
        omega
      obtain ⟨lru, ⟨perm, sorted⟩, dropped⟩ := ih (evictLru now entries) smaller
      have whole : (item :: lru).Perm entries.entries := (perm.cons item).trans removed.symm
      refine ⟨item :: lru, ⟨whole, pairwise_cons.mpr ⟨fun other member => ?_, sorted⟩⟩, fun count => ?_⟩
      · exact greatest other (whole.mem_iff.mp (mem_cons_of_mem _ member))
      · cases count with
        | zero => exact whole.symm
        | succ count =>
            rw [Function.iterate_succ_apply, drop_succ_cons]
            exact dropped count

/-- An eviction from an empty cache changes nothing. -/
theorem evictLru_empty (none : entries.entries = []) : evictLru now entries = entries := by
  rw [evictLru, none]
  rfl

theorem evictLru_length : (evictLru now entries).entries.length = entries.entries.length - 1 := by
  by_cases none : entries.entries = []
  · rw [evictLru_empty now entries none, none]
    rfl
  · obtain ⟨item, _, removed⟩ := evictLru_perm now entries none
    have lengths := removed.length_eq
    rw [length_cons] at lengths
    omega

end EvictLru

/-- The models that are left when the least recently used ones have made room for one slot. -/
def slotsFreed (config : ModelCacheConfig) (now : Nat) (entries : ModelEntries Config) : ModelEntries Config :=
  (evictLru now)^[entries.entries.length + 1 - config.maxModels] entries

section Loops

variable {config : ModelCacheConfig} {now incomingBytes projected budget fuel : Nat}
  {entries kept : ModelEntries Config}

/-- Where the limit is zero, the first loop does not end. -/
theorem evictSlots_some (ran : evictSlots config.maxModels now fuel entries = some kept) :
    0 < config.maxModels ∧ kept = slotsFreed config now entries := by
  rw [slotsFreed]
  induction fuel generalizing entries with
  | zero => cases ran
  | succ fuel ih =>
      rw [evictSlots] at ran
      by_cases full : config.maxModels ≤ entries.entries.length
      · rw [if_pos full] at ran
        obtain ⟨positive, same⟩ := ih ran
        refine ⟨positive, ?_⟩
        rw [same, evictLru_length, ← Function.iterate_succ_apply]
        congr 1
        omega
      · rw [if_neg full, Option.some.injEq] at ran
        rw [← ran, Nat.sub_eq_zero_of_le (by omega)]
        exact ⟨by omega, rfl⟩

theorem evictSlots_ends (positive : 0 < config.maxModels) (enough : entries.entries.length < fuel) :
    ∃ kept, evictSlots config.maxModels now fuel entries = some kept ∧ kept.entries.length ≤ entries.entries.length := by
  induction fuel generalizing entries with
  | zero => omega
  | succ fuel ih =>
      rw [evictSlots]
      by_cases full : config.maxModels ≤ entries.entries.length
      · rw [if_pos full]
        have smaller := evictLru_length now entries
        obtain ⟨kept, ran, few⟩ := @ih (evictLru now entries) (by omega)
        exact ⟨kept, ran, by omega⟩
      · rw [if_neg full]
        exact ⟨entries, rfl, Nat.le_refl _⟩

/-- The second loop keeps all models or none. -/
theorem evictMemory_some (ran : evictMemory projected budget now fuel entries = some kept) :
    projected ≤ budget ∧ kept = entries ∨ budget < projected ∧ kept.entries = [] := by
  induction fuel generalizing entries with
  | zero => cases ran
  | succ fuel ih =>
      rw [evictMemory] at ran
      by_cases beyond : budget < projected
      · by_cases none : entries.entries = []
        · rw [if_neg (fun both => both.2 none), Option.some.injEq] at ran
          rw [← ran]
          exact Or.inr ⟨beyond, none⟩
        · rw [if_pos ⟨beyond, none⟩] at ran
          rcases ih ran with fits | empty
          · omega
          · exact Or.inr empty
      · rw [if_neg (fun both => beyond both.1), Option.some.injEq] at ran
        exact Or.inl ⟨Nat.le_of_not_lt beyond, ran.symm⟩

theorem evictMemory_ends (enough : entries.entries.length < fuel) :
    ∃ kept, evictMemory projected budget now fuel entries = some kept := by
  induction fuel generalizing entries with
  | zero => omega
  | succ fuel ih =>
      rw [evictMemory]
      by_cases more : projected > budget ∧ entries.entries ≠ []
      · rw [if_pos more]
        have smaller := evictLru_length now entries
        have some := length_pos_iff.mpr more.2
        exact ih (by omega)
      · rw [if_neg more]
        exact ⟨entries, rfl⟩

/-- The projected size of the models that are left exceeds the budget. -/
def OverBudget (config : ModelCacheConfig) (incomingBytes : Nat) (entries : ModelEntries Config) : Prop :=
  ∃ budget, enforcedBudget config = some budget ∧ budget < projectedMemory entries incomingBytes

theorem evictIfNeeded_some (ran : evictIfNeeded fuel config now incomingBytes entries = some kept) :
    0 < config.maxModels ∧
      (¬ OverBudget config incomingBytes (slotsFreed config now entries) ∧ kept = slotsFreed config now entries ∨
        OverBudget config incomingBytes (slotsFreed config now entries) ∧ kept.entries = []) := by
  rw [evictIfNeeded] at ran
  cases slots : evictSlots config.maxModels now fuel entries with
  | none =>
      rw [slots] at ran
      cases ran
  | some freed =>
      obtain ⟨positive, same⟩ := evictSlots_some slots
      rw [slots, same] at ran
      refine ⟨positive, ?_⟩
      simp only [OverBudget, enforcedBudget]
      by_cases pressure : config.evictOnMemoryPressure = true
      · simp only [pressure, if_true] at ran ⊢
        cases limit : config.memoryBudgetBytes with
        | none =>
            rw [limit] at ran
            exact Or.inl ⟨nofun, (Option.some.inj ran).symm⟩
        | some budget =>
            rw [limit] at ran
            rcases evictMemory_some ran with ⟨fits, unchanged⟩ | ⟨beyond, empty⟩
            · refine Or.inl ⟨fun ⟨other, found, beyond⟩ => ?_, unchanged⟩
              rw [Option.some.inj found] at fits
              omega
            · exact Or.inr ⟨⟨budget, rfl, beyond⟩, empty⟩
      · simp only [pressure] at ran ⊢
        exact Or.inl ⟨nofun, (Option.some.inj ran).symm⟩

/-- Only models of the cache are kept. -/
theorem evictIfNeeded_mem (ran : evictIfNeeded fuel config now incomingBytes entries = some kept) {key : String}
    (member : key ∈ kept) : key ∈ entries := by
  rcases (evictIfNeeded_some ran).2 with ⟨_, same⟩ | ⟨_, none⟩
  · obtain ⟨lru, ⟨order, _⟩, dropped⟩ := evictLru_order now entries
    rw [same, slotsFreed] at member
    obtain ⟨item, left, same⟩ := mem_map.mp (AList.mem_keys.mp member)
    have within : item ∈ entries.entries :=
      order.mem_iff.mp (mem_of_mem_drop ((dropped _).mem_iff.mp left))
    rw [← same]
    exact AList.mem_keys.mpr (mem_map_of_mem within)
  · rw [AList.mem_keys, AList.keys, none] at member
    cases member

theorem evictIfNeeded_ends (positive : 0 < config.maxModels) (enough : entries.entries.length < fuel) :
    ∃ kept, evictIfNeeded fuel config now incomingBytes entries = some kept := by
  obtain ⟨freed, slots, few⟩ := @evictSlots_ends _ config now fuel entries positive enough
  rw [evictIfNeeded, slots]
  change ∃ kept, (if config.evictOnMemoryPressure then _ else some freed) = some kept
  by_cases pressure : config.evictOnMemoryPressure = true
  · rw [if_pos pressure]
    cases config.memoryBudgetBytes with
    | none => exact ⟨freed, rfl⟩
    | some budget => exact evictMemory_ends (by omega)
  · rw [if_neg pressure]
    exact ⟨freed, rfl⟩

end Loops

section Exact

variable {config : ModelCacheConfig} {now incomingBytes : Nat} {entries kept : ModelEntries Config}

theorem slotsFreed_length (positive : 0 < config.maxModels) :
    (slotsFreed config now entries).entries.length < config.maxModels := by
  obtain ⟨lru, ⟨perm, _⟩, dropped⟩ := evictLru_order now entries
  have lengths := (dropped (entries.entries.length + 1 - config.maxModels)).length_eq
  rw [length_drop, perm.length_eq] at lengths
  rw [slotsFreed]
  omega

/-- Fewer models need less memory. -/
theorem FitsBudget.subset {items fewer : List (Item Config)} (fits : FitsBudget config incomingBytes items)
    (sub : fewer.Subperm items) : FitsBudget config incomingBytes fewer := by
  intro budget enforced
  obtain ⟨part, perm, sublist⟩ := sub
  have sums : (fewer.map fun item => item.2.memoryBytes).sum ≤ (items.map fun item => item.2.memoryBytes).sum := by
    rw [← (perm.map _).sum_eq]
    exact (sublist.map _).sum_le_sum fun _ _ => Nat.zero_le _
  have whole := fits budget enforced
  omega

theorem FitsBudget.perm {items others : List (Item Config)} (perm : items.Perm others) :
    FitsBudget config incomingBytes items ↔ FitsBudget config incomingBytes others :=
  ⟨fun fits => fits.subset perm.symm.subperm, fun fits => fits.subset perm.subperm⟩

/-- The models that the slots leave are kept exactly if they fit. -/
theorem evictsExactly_slotsFreed_iff (positive : 0 < config.maxModels) :
    EvictsExactly config now incomingBytes entries.entries (slotsFreed config now entries).entries ↔
      (slotsFreed config now entries).entries = [] ∨
        FitsBudget config incomingBytes (slotsFreed config now entries).entries := by
  have few := @slotsFreed_length _ config now entries positive
  constructor
  · intro ⟨lru, count, _, perm, enough, _⟩
    rcases enough with none | ⟨_, fits⟩
    · rw [none] at perm
      exact Or.inl perm.eq_nil
    · exact Or.inr ((FitsBudget.perm perm).mpr fits)
  · intro fits
    obtain ⟨lru, order, dropped⟩ := evictLru_order now entries
    have perm := dropped (entries.entries.length + 1 - config.maxModels)
    refine ⟨lru, _, order, perm, ?_, fun fewer less enough => ?_⟩
    · rcases fits with none | fits
      · refine Or.inl ?_
        rw [slotsFreed] at none
        rw [none] at perm
        exact perm.symm.eq_nil
      · refine Or.inr ⟨?_, (FitsBudget.perm perm).mp fits⟩
        rw [← perm.length_eq]
        exact few
    · have lengths := order.1.length_eq
      have rest : (lru.drop fewer).length = entries.entries.length - fewer := by
        rw [length_drop, lengths]
      rcases enough with none | ⟨room, _⟩
      · rw [none, length_nil] at rest
        omega
      · omega

/-- The shortest prefix is the whole order exactly if a model used last does not fit. -/
theorem evictsExactly_nil_iff (positive : 0 < config.maxModels) (none : kept.entries = []) :
    EvictsExactly config now incomingBytes entries.entries kept.entries ↔
      (slotsFreed config now entries).entries = [] ∨ ∃ item ∈ entries.entries,
        (∀ other ∈ entries.entries, item.2.idleMicros now ≤ other.2.idleMicros now) ∧
        ¬ FitsBudget config incomingBytes [item] := by
  constructor
  · intro ⟨lru, count, ⟨order, sorted⟩, perm, _, least⟩
    by_cases empty : (slotsFreed config now entries).entries = []
    · exact Or.inl empty
    · have room := @slotsFreed_length _ config now entries positive
      have left := length_pos_iff.mpr empty
      have some : lru ≠ [] := by
        intro nil
        obtain ⟨other, ⟨order', _⟩, dropped⟩ := evictLru_order now entries
        rw [nil] at order
        rw [order.symm.eq_nil] at order'
        have rest := dropped (entries.entries.length + 1 - config.maxModels)
        rw [order'.eq_nil, drop_nil] at rest
        exact empty rest.eq_nil
      obtain ⟨front, item, rfl⟩ := (eq_nil_or_concat lru).resolve_left some
      rw [concat_eq_append] at *
      rw [none] at perm
      have long : (front ++ [item]).length ≤ count := drop_eq_nil_iff.mp perm.symm.eq_nil
      rw [length_append, length_singleton] at long
      have last := least front.length (by omega)
      rw [drop_left] at last
      refine Or.inr ⟨item, order.mem_iff.mp (mem_append_right _ mem_cons_self), fun other member => ?_,
        fun fits => last (Or.inr ⟨?_, fits⟩)⟩
      · rcases mem_append.mp (order.mem_iff.mpr member) with before | here
        · exact (pairwise_append.mp sorted).2.2 other before item mem_cons_self
        · rw [mem_singleton.mp here]
      · rw [length_singleton]
        omega
  · intro either
    rcases either with empty | ⟨item, member, least, large⟩
    · rw [none, ← empty]
      exact (evictsExactly_slotsFreed_iff positive).mpr (Or.inl empty)
    · obtain ⟨lru, ⟨order, sorted⟩, _⟩ := evictLru_order now entries
      obtain ⟨before, after, rfl⟩ := append_of_mem (order.mem_iff.mpr member)
      have moved : (before ++ after ++ [item]).Perm (before ++ item :: after) := by
        rw [append_assoc]
        exact (perm_append_singleton item after).append_left before
      refine ⟨before ++ after ++ [item], (before ++ after ++ [item]).length, ⟨moved.trans order, ?_⟩, ?_,
        Or.inl drop_length, fun fewer less enough => ?_⟩
      · refine pairwise_append.mpr ⟨?_, pairwise_singleton _ _, fun other earlier last single => ?_⟩
        · exact sorted.sublist ((sublist_cons_self item after).append_left before)
        · rw [mem_singleton.mp single]
          exact least other (order.mem_iff.mp (moved.mem_iff.mp (mem_append_left _ earlier)))
      · rw [none, drop_length]
      · have inside : [item].Subperm ((before ++ after ++ [item]).drop fewer) := by
          rw [drop_append_of_le_length (by
            rw [length_append, length_singleton] at less
            omega)]
          exact (sublist_append_right _ _).subperm
        rcases enough with nil | ⟨_, fits⟩
        · rw [nil] at inside
          exact absurd inside.length_le (by simp)
        · exact large (fits.subset inside)

/-- The condition under which a miss evicts exactly the models that have to go. -/
def EvictionSettled (config : ModelCacheConfig) (now incomingBytes : Nat) (entries : ModelEntries Config) : Prop :=
  0 < config.maxModels ∧
    ((slotsFreed config now entries).entries = [] ∨
      FitsBudget config incomingBytes (slotsFreed config now entries).entries ∨
      OverBudget config incomingBytes (slotsFreed config now entries) ∧ ∃ item ∈ entries.entries,
        (∀ other ∈ entries.entries, item.2.idleMicros now ≤ other.2.idleMicros now) ∧
        ¬ FitsBudget config incomingBytes [item])

/-- What is projected is not more than what is needed. -/
theorem OverBudget.not_fits (beyond : OverBudget config incomingBytes entries) :
    ¬ FitsBudget config incomingBytes entries.entries := by
  intro fits
  obtain ⟨budget, enforced, above⟩ := beyond
  have needed : (entries.entries.map fun item => item.2.memoryBytes).sum + incomingBytes ≤ budget :=
    fits budget enforced
  have wrapped : totalMemory entries.entries ≤ (entries.entries.map fun item => item.2.memoryBytes).sum :=
    Nat.mod_le _ _
  rw [projectedMemory] at above
  omega

/-- The loops end and evict exactly the models that have to go if and only if the eviction is settled. -/
theorem evictIfNeeded_exact_iff : ((∃ fuel kept, evictIfNeeded fuel config now incomingBytes entries = some kept) ∧
      ∀ fuel kept, evictIfNeeded fuel config now incomingBytes entries = some kept →
        EvictsExactly config now incomingBytes entries.entries kept.entries) ↔
    EvictionSettled config now incomingBytes entries := by
  constructor
  · intro ⟨⟨fuel, kept, ran⟩, exact⟩
    have exactly := exact fuel kept ran
    obtain ⟨positive, either⟩ := evictIfNeeded_some ran
    refine ⟨positive, ?_⟩
    rcases either with ⟨_, same⟩ | ⟨beyond, none⟩
    · rw [same] at exactly
      rcases (evictsExactly_slotsFreed_iff positive).mp exactly with empty | fits
      · exact Or.inl empty
      · exact Or.inr (Or.inl fits)
    · rcases (evictsExactly_nil_iff positive none).mp exactly with empty | last
      · exact Or.inl empty
      · exact Or.inr (Or.inr ⟨beyond, last⟩)
  · intro ⟨positive, settled⟩
    refine ⟨⟨_, evictIfNeeded_ends positive (Nat.lt_succ_self _)⟩, fun fuel kept ran => ?_⟩
    rcases (evictIfNeeded_some ran).2 with ⟨within, same⟩ | ⟨beyond, none⟩
    · rw [same, evictsExactly_slotsFreed_iff positive]
      rcases settled with empty | fits | ⟨beyond, _⟩
      · exact Or.inl empty
      · exact Or.inr fits
      · exact absurd beyond within
    · rw [evictsExactly_nil_iff positive none]
      rcases settled with empty | fits | ⟨_, last⟩
      · exact Or.inl empty
      · exact absurd fits beyond.not_fits
      · exact Or.inr last

end Exact

section GetOrInsert

variable (cache : ModelCache Config) (key : String) (loaded : ModelEntry Config) (now loadedNow : Nat)

/-- A model that is looked up is found, or the new one is inserted after the evictions. -/
theorem getOrInsert_cases (fuel : Nat) : (cache.contains key now = true ∧
      ∃ entry after, cache.getOrInsert fuel key loaded now loadedNow = some (entry, after) ∧
        after.entries.keys = cache.entries.keys) ∨
    cache.contains key now = false ∧ cache.getOrInsert fuel key loaded now loadedNow =
      cache.insertLoaded fuel key loaded loadedNow (cache.entries.erase key) := by
  rw [contains, getOrInsert]
  cases found : cache.entries.lookup key with
  | none =>
      have absent : cache.entries.erase key = cache.entries :=
        AList.ext (kerase_of_notMem_keys (AList.lookup_eq_none.mp found))
      rw [absent]
      exact Or.inr ⟨rfl, rfl⟩
  | some entry =>
      cases stale : entry.isStale cache.config.ttl now with
      | true =>
          refine Or.inr ⟨?_, ?_⟩
          · simp only [stale, Bool.not_true]
          · simp only [stale, if_true]
      | false =>
          simp only [stale, Bool.not_false]
          exact Or.inl ⟨True.intro, _, _, rfl, AList.keys_replace _ _ _⟩

theorem insertLoaded_some {fuel : Nat} {entries : ModelEntries Config}
    {result : ModelEntry Config × ModelCache Config} :
    cache.insertLoaded fuel key loaded loadedNow entries = some result ↔
      ∃ kept, evictIfNeeded fuel cache.config loadedNow loaded.memoryBytes entries = some kept ∧
        result = (loaded, { cache with entries := kept.insert key loaded, misses := cache.misses + 1 }) := by
  rw [insertLoaded]
  cases evictIfNeeded fuel cache.config loadedNow loaded.memoryBytes entries with
  | none => simp
  | some kept => simp [eq_comm]

/-- A call evicts nothing where it finds the model, and else exactly what has to go before it inserts the new one. -/
structure Exact (result : ModelEntry Config × ModelCache Config) : Prop where
  hit : cache.contains key now = true → result.2.entries.keys = cache.entries.keys
  miss : cache.contains key now = false → ∃ kept : ModelEntries Config,
    result.2.entries = kept.insert key loaded ∧ key ∉ kept ∧
      EvictsExactly cache.config loadedNow loaded.memoryBytes (cache.entries.erase key).entries kept.entries

end GetOrInsert

section Run

/-- The sizes of the models in the order of the map. -/
def sizes (entries : ModelEntries Config) : List Nat := entries.entries.map fun item => item.2.memoryBytes

/-- The models keep the limits of a configuration. A single model may exceed the budget. -/
structure Limited (config : ModelCacheConfig) (sizes : List Nat) : Prop where
  few : sizes.length ≤ config.maxModels
  sized : ∀ size ∈ sizes, size < 2 ^ 64
  fits : sizes.length ≤ 1 ∨ ∀ budget, enforcedBudget config = some budget → sizes.sum ≤ budget

/-- The calls on a cache, with the number of lookups that have ended. Sizes are machine numbers. -/
inductive Run (config : ModelCacheConfig) : Nat → ModelCache Config → Prop
  | new : Run config 0 (new config)
  | getOrInsert {calls : Nat} {cache after : ModelCache Config} {entry : ModelEntry Config} (fuel : Nat) (key : String)
      (loaded : ModelEntry Config) (now loadedNow : Nat) : loaded.memoryBytes < 2 ^ 64 → Run config calls cache →
      cache.getOrInsert fuel key loaded now loadedNow = some (entry, after) → Run config (calls + 1) after
  | evict {calls : Nat} {cache : ModelCache Config} (key : String) : Run config calls cache →
      Run config calls (cache.evict key).2
  | evictStale {calls : Nat} {cache : ModelCache Config} (now : Nat) : Run config calls cache →
      Run config calls (cache.evictStale now).2

variable {config : ModelCacheConfig} {entries kept : ModelEntries Config} {calls : Nat} {cache : ModelCache Config}

theorem Limited.subperm {fewer more : List Nat} (limited : Limited config more) (sub : fewer.Subperm more) :
    Limited config fewer := by
  have few := sub.length_le
  have inside := sub.subset
  obtain ⟨part, perm, sublist⟩ := sub
  refine ⟨few.trans limited.few, fun size member => limited.sized size (inside member), ?_⟩
  refine limited.fits.imp few.trans fun fits budget enforced => ?_
  rw [← perm.sum_eq]
  exact (sublist.sum_le_sum fun _ _ => Nat.zero_le _).trans (fits budget enforced)

theorem sizes_replace {key : String} {entry used : ModelEntry Config} (found : entries.lookup key = some entry)
    (same : used.memoryBytes = entry.memoryBytes) : sizes (entries.replace key used) = sizes entries := by
  obtain ⟨items, distinct⟩ := entries
  change dlookup key items = some entry at found
  change (kreplace key used items).map (fun item => item.2.memoryBytes) = items.map fun item => item.2.memoryBytes
  clear distinct
  induction items with
  | nil => cases found
  | cons item items ih =>
      rw [kreplace]
      by_cases here : key = item.1
      · obtain ⟨name, value⟩ := item
        obtain rfl : key = name := here
        rw [dlookup_cons_eq, Option.some.injEq] at found
        rw [lookmap_cons, if_pos rfl, map_cons, map_cons, same, found]
      · rw [dlookup_cons_ne _ _ here] at found
        rw [lookmap_cons, if_neg here, map_cons, map_cons, ← kreplace, ih found]

theorem sizes_erase (key : String) (entries : ModelEntries Config) :
    (sizes (entries.erase key)).Subperm (sizes entries) :=
  ((kerase_sublist key entries.entries).map _).subperm

theorem sizes_slotsFreed (config : ModelCacheConfig) (now : Nat) (entries : ModelEntries Config) :
    (sizes (slotsFreed config now entries)).Subperm (sizes entries) := by
  obtain ⟨lru, ⟨perm, _⟩, dropped⟩ := evictLru_order now entries
  exact ((dropped _).map _).subperm.trans (((drop_sublist _ lru).map _).subperm.trans (perm.map _).subperm)

/-- The models that the evictions leave make room for the new one, or none is left. -/
theorem Limited.insert (representable : ∀ budget, enforcedBudget config = some budget → budget < 2 ^ 64 - 1)
    {fuel now : Nat} {key : String} {loaded : ModelEntry Config} (size : loaded.memoryBytes < 2 ^ 64)
    (limited : Limited config (sizes entries)) (absent : key ∉ entries)
    (ran : evictIfNeeded fuel config now loaded.memoryBytes entries = some kept) :
    Limited config (sizes (kept.insert key loaded)) := by
  have outside : key ∉ kept := fun member => absent (evictIfNeeded_mem ran member)
  rw [sizes, AList.entries_insert_of_notMem outside]
  obtain ⟨positive, ⟨within, rfl⟩ | ⟨_, none⟩⟩ := evictIfNeeded_some ran
  · have freed := limited.subperm (sizes_slotsFreed config now entries)
    have few := @slotsFreed_length _ config now entries positive
    refine ⟨by rwa [length_map], forall_mem_cons.mpr ⟨size, freed.sized⟩, Or.inr fun budget enforced => ?_⟩
    have bound := representable budget enforced
    have projected : projectedMemory (slotsFreed config now entries) loaded.memoryBytes ≤ budget :=
      Nat.le_of_not_lt fun beyond => within ⟨budget, enforced, beyond⟩
    have small : (sizes (slotsFreed config now entries)).sum < 2 ^ 64 := by
      rcases freed.fits with single | fits
      · generalize sizes (slotsFreed config now entries) = list at single freed ⊢
        rcases list with _ | ⟨only, _ | ⟨second, rest⟩⟩
        · decide
        · exact freed.sized only mem_cons_self
        · simp at single
      · have below := fits budget enforced
        omega
    rw [projectedMemory, totalMemory] at projected
    change (loaded.memoryBytes :: sizes (slotsFreed config now entries)).sum ≤ budget
    change min ((sizes (slotsFreed config now entries)).sum % 2 ^ 64 + _) _ ≤ budget at projected
    rw [sum_cons]
    omega
  · rw [none]
    exact ⟨positive, forall_mem_singleton.mpr size, Or.inl (Nat.le_refl 1)⟩

/-- In every state of a run the models keep the limits, and each lookup is a hit or a miss. -/
theorem runs_limited (representable : ∀ budget, enforcedBudget config = some budget → budget < 2 ^ 64 - 1)
    (run : Run config calls cache) :
    cache.config = config ∧ Limited config (sizes cache.entries) ∧ cache.hits + cache.misses = calls := by
  induction run with
  | new => exact ⟨rfl, ⟨Nat.zero_le _, fun _ none => absurd none not_mem_nil, Or.inl (Nat.zero_le 1)⟩, rfl⟩
  | @getOrInsert calls cache after entry fuel key loaded now loadedNow size _ ended ih =>
      obtain ⟨rfl, limited, counted⟩ := ih
      have missed {entries : ModelEntries Config} (limited : Limited cache.config (sizes entries)) (absent : key ∉ entries)
          (ended : cache.insertLoaded fuel key loaded loadedNow entries = some (entry, after)) :
          after.config = cache.config ∧ Limited cache.config (sizes after.entries) ∧
            after.hits + after.misses = calls + 1 := by
        obtain ⟨kept, ran, same⟩ := (insertLoaded_some _ _ _ _).mp ended
        cases same
        exact ⟨rfl, limited.insert representable size absent ran, congrArg Nat.succ counted⟩
      rw [getOrInsert] at ended
      cases found : cache.entries.lookup key with
      | none =>
          rw [found] at ended
          exact missed limited (AList.lookup_eq_none.mp found) ended
      | some live =>
          rw [found] at ended
          dsimp only at ended
          split at ended
          · exact missed (limited.subperm (sizes_erase key cache.entries))
              (fun member => (AList.mem_erase.mp member).1 rfl) ended
          · cases ended
            have same := @sizes_replace _ cache.entries key live
              { live with lastUsed := now, useCount := live.useCount + 1 } found rfl
            exact ⟨rfl, (congrArg (Limited cache.config) same).mpr limited, by rw [← counted, Nat.add_right_comm]⟩
  | evict key _ ih =>
      exact ⟨ih.1, ih.2.1.subperm (sizes_erase key _), ih.2.2⟩
  | evictStale now _ ih => exact ⟨ih.1, ih.2.1.subperm (filter_sublist.map _).subperm, ih.2.2⟩

end Run

section Example

/-- A model of a hundred bytes. -/
def smallModel (lastUsed : Nat) : ModelEntry Unit := ⟨(), none, 0, lastUsed, 0, 100⟩

/-- Two models of which one has to go to make room for a third one. -/
def twoModels : ModelCache Unit where
  entries := (AList.insert "b" (smallModel 1000) ∅).insert "a" (smallModel 0)
  config := ⟨4, 3600000000000, true, some 250⟩
  hits := 0
  misses := 2

/-- Three models of a hundred bytes do not fit a budget of 250 bytes, and the third lookup evicts both others. -/
theorem runs_limited_three : ∃ cache : ModelCache Unit, sizes cache.entries = [100] ∧ cache.hits + cache.misses = 3 := by
  have small (lastUsed : Nat) : (smallModel lastUsed).memoryBytes < 2 ^ 64 := (by decide : 100 < 2 ^ 64)
  have run : Run ⟨4, 3600000000000, true, some 250⟩ 3 _ :=
    .getOrInsert 9 "c" _ 2 2 (small 2) (.getOrInsert 9 "b" _ 1 1 (small 1) (.getOrInsert 9 "a" _ 0 0 (small 0) .new rfl) rfl) rfl
  exact ⟨_, rfl, (runs_limited (fun budget enforced => by cases enforced; decide) run).2.2⟩

end Example

end Pictor.ModelCache
