import Pictor.Construction.Rag.EmbeddingIndex
import Pictor.Library.Transitions
import Pictor.Proof.Cache.PrefixArena

namespace Pictor.EmbeddingIndex
open Relation Transitions List

variable {Scalar Score : Type} [LinearOrder Score] {geometry : Geometry Scalar Score}
  {nodes : List (NswNode Scalar)} {query : List Scalar} {entry ef : Nat}

/-- A neighbour list holds at most so many distinct nodes, all in the graph and none the node itself. -/
structure Linked (maxConnections : Nat) (nodes : List (NswNode Scalar)) : Prop where
  distinct : ∀ idx, (neighborsOf nodes idx).Nodup
  few : ∀ idx, (neighborsOf nodes idx).length ≤ maxConnections
  inside : ∀ idx, ∀ nb ∈ neighborsOf nodes idx, nb < nodes.length ∧ nb ≠ idx

/-- A node can be reached from another one along the edges. -/
def Reaches (nodes : List (NswNode Scalar)) : Nat → Nat → Prop := ReflTransGen fun a b => b ∈ neighborsOf nodes a

theorem popFrontier_perm {frontier : List (Score × Nat)} (popped : popFrontier frontier = some (best, rest)) :
    frontier.Perm (best :: rest) := by
  cases frontier with
  | nil => cases popped
  | cons first others =>
      have chosen (items : List (Score × Nat)) (start : Score × Nat) : items.foldl (fun best next =>
          if best.1 < next.1 ∨ best.1 = next.1 ∧ best.2 < next.2 then next else best) start ∈ start :: items := by
        induction items generalizing start with
        | nil => exact mem_cons_self
        | cons item items ih =>
            rw [foldl_cons]
            split
            · exact mem_cons_of_mem _ (ih item)
            · exact mem_cons.mpr ((mem_cons.mp (ih start)).imp_right (mem_cons_of_mem _))
      cases popped
      exact perm_cons_erase (chosen others first)

theorem worstIdx_inside {results : List (Nat × Score)} {idx : Nat} (found : worstIdx results = some idx) :
    idx < results.length := by
  obtain ⟨worst, _, here⟩ := Option.bind_eq_some_iff.mp found
  have inside := (idxOf?_eq_some_iff.mp here).1
  rwa [length_map] at inside

/-- Trimming loses one result at most, and never the last one of a search that keeps any. -/
theorem trimResults_perm (ef : Nat) (results : List (Nat × Score)) :
    ∃ lost, results.Perm (lost ++ trimResults ef results) ∧
      (1 ≤ ef → results ≠ [] → trimResults ef results ≠ []) := by
  rw [trimResults]
  by_cases many : ef < results.length
  · rw [if_pos many]
    cases found : worstIdx results with
    | none => exact ⟨[], .refl _, fun _ some_ => some_⟩
    | some idx =>
        have perm := PrefixCache.swapRemove_perm results (getElem?_eq_getElem (worstIdx_inside found))
        refine ⟨[_], perm, fun positive _ none => ?_⟩
        have counted := perm.length_eq
        rw [Option.elim_some] at none
        rw [none, length_singleton] at counted
        omega
  · rw [if_neg many]
    exact ⟨[], .refl _, fun _ some_ => some_⟩

/-- What every traversal keeps. -/
structure Sound (nodes : List (NswNode Scalar)) (ef : Nat) (state : Traversal Score) : Prop where
  distinct : state.visited.Nodup
  inside : ∀ idx ∈ state.visited, idx < nodes.length
  seen : ∀ item ∈ state.frontier, item.2 ∈ state.visited
  single : (state.results.map Prod.fst).Nodup
  known : ∀ result ∈ state.results, result.1 ∈ state.visited
  some_ : 1 ≤ ef → state.results ≠ []

variable {state : Traversal Score}

theorem Sound.visit (sound : Sound nodes ef state) {nb : Nat} (inside : nb < nodes.length) :
    Sound nodes ef (visit geometry nodes query ef state nb) := by
  rw [EmbeddingIndex.visit]
  split
  case isTrue => exact sound
  case isFalse fresh =>
    have grown : ∀ idx ∈ state.visited, idx ∈ state.visited ++ [nb] := fun _ => mem_append_left _
    have here : nb ∈ state.visited ++ [nb] := mem_append_right _ (mem_singleton_self nb)
    obtain ⟨lost, perm, some_⟩ := trimResults_perm ef (state.results ++ [(nb, scoreOf geometry nodes query nb)])
    have single : ((state.results ++ [(nb, scoreOf geometry nodes query nb)]).map Prod.fst).Nodup := by
      rw [map_append]
      refine nodup_append'.mpr ⟨sound.single, nodup_singleton _, ?_⟩
      rw [map_singleton, disjoint_singleton]
      rintro member
      obtain ⟨result, listed, rfl⟩ := mem_map.mp member
      exact fresh (sound.known result listed)
    rw [(perm.map Prod.fst).nodup_iff, map_append] at single
    constructor
    · exact nodup_append'.mpr ⟨sound.distinct, nodup_singleton _, disjoint_singleton.mpr fresh⟩
    · exact forall_mem_append.mpr ⟨sound.inside, forall_mem_singleton.mpr inside⟩
    · exact forall_mem_cons.mpr ⟨here, fun item member => grown _ (sound.seen item member)⟩
    · exact (nodup_append'.mp single).2.1
    · intro result member
      rcases mem_append.mp (perm.mem_iff.mpr (mem_append_right _ member)) with old | new
      · exact grown _ (sound.known result old)
      · rwa [mem_singleton.mp new]
    · exact fun positive => some_ positive (by simp)

theorem Sound.visits (sound : Sound nodes ef state) {list : List Nat} (inside : ∀ nb ∈ list, nb < nodes.length) :
    Sound nodes ef (list.foldl (EmbeddingIndex.visit geometry nodes query ef) state) := by
  induction list generalizing state with
  | nil => exact sound
  | cons nb list ih =>
      obtain ⟨here, later⟩ := forall_mem_cons.mp inside
      exact ih (sound.visit here) later

theorem Sound.pop (sound : Sound nodes ef state) (popped : popFrontier state.frontier = some (best, rest)) :
    Sound nodes ef { state with frontier := rest } :=
  ⟨sound.distinct, sound.inside, fun item member => sound.seen item ((popFrontier_perm popped).mem_iff.mpr
    (mem_cons_of_mem _ member)), sound.single, sound.known, sound.some_⟩

/-- The results of a search are distinct nodes of the graph, and there are some if any may be kept. -/
theorem searchLoop_sound (inside : ∀ idx, ∀ nb ∈ neighborsOf nodes idx, nb < nodes.length) (fuel : Nat)
    (sound : Sound nodes ef state) : let results := searchLoop geometry nodes query ef fuel state
      (results.map Prod.fst).Nodup ∧ (∀ result ∈ results, result.1 < nodes.length) ∧ (1 ≤ ef → results ≠ []) := by
  have done {state : Traversal Score} (sound : Sound nodes ef state) : (state.results.map Prod.fst).Nodup ∧
      (∀ result ∈ state.results, result.1 < nodes.length) ∧ (1 ≤ ef → state.results ≠ []) :=
    ⟨sound.single, fun result member => sound.inside _ (sound.known result member), sound.some_⟩
  induction fuel generalizing state with
  | zero => exact done sound
  | succ fuel ih =>
      dsimp only
      rw [searchLoop]
      split
      · exact done sound
      · rename_i popped
        split
        · exact done sound
        · exact ih ((sound.pop popped).visits (inside _))

/-- A wide traversal keeps all nodes that it has seen, and has expanded those that are not on its frontier. -/
structure Wide (geometry : Geometry Scalar Score) (nodes : List (NswNode Scalar)) (query : List Scalar) (entry : Nat)
    (pending : Nat → Prop) (state : Traversal Score) : Prop where
  start : entry ∈ state.visited
  kept : state.results = state.visited.map fun idx => (idx, scoreOf geometry nodes query idx)
  reached : ∀ idx ∈ state.visited, Reaches nodes entry idx
  expanded : ∀ idx ∈ state.visited, pending idx ∨ idx ∈ state.frontier.map Prod.snd ∨
    ∀ nb ∈ neighborsOf nodes idx, nb ∈ state.visited

variable {pending : Nat → Prop} {rest : List (Score × Nat)} {best : Score × Nat}

theorem Wide.visit (wide : Wide geometry nodes query entry pending state) (sound : Sound nodes ef state)
    (enough : nodes.length ≤ ef) {nb : Nat} (inside : nb < nodes.length) (reached : Reaches nodes entry nb) :
    let next := EmbeddingIndex.visit geometry nodes query ef state nb
    Wide geometry nodes query entry pending next ∧ nb ∈ next.visited ∧ (∀ idx ∈ state.visited, idx ∈ next.visited) ∧
      next.frontier.length + state.visited.length = state.frontier.length + next.visited.length := by
  dsimp only
  rw [EmbeddingIndex.visit]
  split
  case isTrue old => exact ⟨wide, old, fun _ same => same, rfl⟩
  case isFalse fresh =>
    have grown : ∀ idx ∈ state.visited, idx ∈ state.visited ++ [nb] := fun _ => mem_append_left _
    have here : nb ∈ state.visited ++ [nb] := mem_append_right _ (mem_singleton_self nb)
    have room : (state.visited ++ [nb]).length ≤ nodes.length := by
      have distinct : (state.visited ++ [nb]).Nodup :=
        nodup_append'.mpr ⟨sound.distinct, nodup_singleton _, disjoint_singleton.mpr fresh⟩
      have subset : state.visited ++ [nb] ⊆ List.range nodes.length := fun idx member => mem_range.mpr <|
        (mem_append.mp member).elim (sound.inside idx) fun new => (mem_singleton.mp new) ▸ inside
      exact (distinct.length_le_of_subset subset).trans length_range.le
    refine ⟨⟨grown _ wide.start, ?_, ?_, ?_⟩, here, grown, ?_⟩
    · dsimp only
      rw [wide.kept, map_append, trimResults, if_neg]
      · rfl
      · rw [length_append, length_map, length_singleton]
        rw [length_append, length_singleton] at room
        omega
    · exact forall_mem_append.mpr ⟨wide.reached, forall_mem_singleton.mpr reached⟩
    · refine forall_mem_append.mpr ⟨fun idx member => ?_, forall_mem_singleton.mpr ?_⟩
      · exact (wide.expanded idx member).imp_right (Or.imp (mem_cons_of_mem _) fun all nb' member' =>
          grown _ (all nb' member'))
      · exact Or.inr (Or.inl mem_cons_self)
    · simp only [length_cons, length_append, length_nil]
      omega

theorem Wide.visits (wide : Wide geometry nodes query entry pending state) (sound : Sound nodes ef state)
    (enough : nodes.length ≤ ef) {list : List Nat}
    (inside : ∀ nb ∈ list, nb < nodes.length ∧ Reaches nodes entry nb) :
    let next := list.foldl (EmbeddingIndex.visit geometry nodes query ef) state
    Wide geometry nodes query entry pending next ∧ (∀ nb ∈ list, nb ∈ next.visited) ∧
      (∀ idx ∈ state.visited, idx ∈ next.visited) ∧
      next.frontier.length + state.visited.length = state.frontier.length + next.visited.length := by
  induction list generalizing state with
  | nil => exact ⟨wide, forall_mem_nil _, fun _ same => same, rfl⟩
  | cons nb list ih =>
      obtain ⟨here, later⟩ := forall_mem_cons.mp inside
      obtain ⟨wide', seen, grown, counted⟩ := @Wide.visit _ _ _ geometry _ _ _ _ _ _ wide sound enough _ here.1 here.2
      obtain ⟨final, all, grown', counted'⟩ := ih wide' (sound.visit here.1) later
      refine ⟨final, forall_mem_cons.mpr ⟨grown' _ seen, all⟩, fun idx member => grown' _ (grown idx member), ?_⟩
      rw [foldl_cons]
      omega

/-- The results are the nodes that can be reached from an entry, each one once, with their similarities. -/
def Finds (geometry : Geometry Scalar Score) (nodes : List (NswNode Scalar)) (query : List Scalar) (entry : Nat)
    (results : List (Nat × Score)) : Prop :=
  ∃ visited : List Nat, results = visited.map (fun idx => (idx, scoreOf geometry nodes query idx)) ∧ visited.Nodup ∧
    ∀ idx, idx ∈ visited ↔ Reaches nodes entry idx

/-- A wide search finds the nodes that can be reached from its entry. -/
theorem searchLoop_wide (inside : ∀ idx, ∀ nb ∈ neighborsOf nodes idx, nb < nodes.length) (enough : nodes.length ≤ ef)
    (fuel : Nat) (sound : Sound nodes ef state) (wide : Wide geometry nodes query entry (fun _ => False) state)
    (counted : state.frontier.length + nodes.length ≤ fuel + state.visited.length) :
    Finds geometry nodes query entry (searchLoop geometry nodes query ef fuel state) := by
  have done {state : Traversal Score} (sound : Sound nodes ef state)
      (wide : Wide geometry nodes query entry (fun _ => False) state) (none : state.frontier = []) :
      Finds geometry nodes query entry state.results := by
    refine ⟨state.visited, wide.kept, sound.distinct, fun idx => ⟨wide.reached idx, fun reached => ?_⟩⟩
    induction reached with
    | refl => exact wide.start
    | tail _ edge ih =>
        rcases wide.expanded _ ih with wrong | listed | all
        · exact wrong.elim
        · rw [none] at listed
          cases listed
        · exact all _ edge
  induction fuel generalizing state with
  | zero =>
      have subset : state.visited ⊆ List.range nodes.length := fun idx member =>
        mem_range.mpr (sound.inside idx member)
      have bound := (sound.distinct.length_le_of_subset subset).trans length_range.le
      exact done sound wide (length_eq_zero_iff.mp (by omega))
  | succ fuel ih =>
      rw [searchLoop]
      split
      · rename_i empty
        refine done sound wide ?_
        cases frontier : state.frontier with
        | nil => rfl
        | cons first rest =>
            rw [frontier] at empty
            cases empty
      · rename_i score nodeIdx rest popped
        have perm := popFrontier_perm popped
        have member := sound.seen _ (perm.mem_iff.mpr mem_cons_self)
        -- The popped node is a result, so it does not stop the loop.
        have goes : stops ef nodeIdx rest state.results = false := by
          have here : (nodeIdx, scoreOf geometry nodes query nodeIdx) ∈ state.results :=
            wide.kept ▸ mem_map_of_mem member
          rw [stops]
          cases found : state.results.find? fun result => result.1 = nodeIdx with
          | none => exact absurd (decide_eq_true rfl) (find?_eq_none.mp found _ here)
          | some result =>
              have self := mem_of_find?_eq_some found
              rw [Bool.and_eq_false_iff]
              refine Or.inr (Bool.eq_false_iff.mpr fun all => ?_)
              exact absurd (of_decide_eq_true (all_eq_true.mp all result self)) (lt_irrefl _)
        rw [goes, if_neg Bool.false_ne_true]
        have opened : Wide geometry nodes query entry (· = nodeIdx) { state with frontier := rest } := by
          refine ⟨wide.start, wide.kept, wide.reached, fun idx listed => ?_⟩
          rcases wide.expanded idx listed with wrong | waiting | all
          · exact wrong.elim
          · rcases mem_cons.mp ((perm.map Prod.snd).mem_iff.mp waiting) with same | behind
            · exact Or.inl same
            · exact Or.inr (Or.inl behind)
          · exact Or.inr (Or.inr all)
        obtain ⟨next, all, grown, counted'⟩ := @Wide.visits _ _ _ geometry _ _ _ _ _ _ opened (sound.pop popped) enough
          (neighborsOf nodes nodeIdx) fun nb edge => ⟨inside _ nb edge, (wide.reached _ member).tail edge⟩
        refine ih ((sound.pop popped).visits (inside _)) ⟨next.start, next.kept, next.reached, fun idx listed => ?_⟩ ?_
        · rcases next.expanded idx listed with rfl | rest
          · exact Or.inr (Or.inr all)
          · exact Or.inr rest
        · have size := perm.length_eq
          rw [length_cons] at size
          dsimp only at counted'
          omega

omit [LinearOrder Score] in
/-- The start of a traversal. -/
theorem sound_start (inside : entry < nodes.length) (score : Score) :
    Sound nodes ef ⟨[entry], [(score, entry)], [(entry, score)]⟩ :=
  ⟨nodup_singleton _, forall_mem_singleton.mpr inside, forall_mem_singleton.mpr mem_cons_self,
    nodup_singleton _, forall_mem_singleton.mpr mem_cons_self, fun _ => cons_ne_nil _ _⟩

section Graph

variable {maxConn : Nat} {node : NswNode Scalar}

theorem neighborsOf_append (nodes : List (NswNode Scalar)) (node : NswNode Scalar) (idx : Nat) :
    neighborsOf (nodes ++ [node]) idx = if idx = nodes.length then node.neighbors else neighborsOf nodes idx := by
  rw [neighborsOf, neighborsOf]
  by_cases last : idx = nodes.length
  · rw [if_pos last, last, getElem?_concat_length]
    rfl
  · rw [if_neg last]
    rcases Nat.lt_or_gt_of_ne last with before | behind
    · rw [getElem?_append_left before]
    · rw [getElem?_eq_none (by rw [length_append]; exact behind), getElem?_eq_none behind.le]

omit [LinearOrder Score] in
theorem Linked.edgeless (none : ∀ idx, neighborsOf nodes idx = []) : Linked maxConn nodes :=
  ⟨fun idx => by simp [none], fun idx => by simp [none], fun idx => by simp [none]⟩

/-- What a node stores beside its neighbours. -/
def stored (node : NswNode Scalar) : Nat × List Scalar := (node.id, node.vector)

/-- A back edge changes the list of one node: it takes the new node in if there is room, and loses some nodes if not. -/
theorem addBackEdge_spec (geometry : Geometry Scalar Score) (maxConn newIdx : Nat) {nb : Nat} (inside : nb < nodes.length) :
    let after := addBackEdge geometry maxConn newIdx nodes nb
    after.map stored = nodes.map stored ∧ (∀ idx ≠ nb, neighborsOf after idx = neighborsOf nodes idx) ∧
      (neighborsOf after nb).length ≤ maxConn ∧
      (∃ lost, (neighborsOf nodes nb ++ [newIdx]).Perm (neighborsOf after nb ++ lost)) ∧
      ((neighborsOf nodes nb).length < maxConn → neighborsOf after nb = neighborsOf nodes nb ++ [newIdx]) := by
  have same (idx : Nat) (other : idx ≠ nb) :
      neighborsOf (addBackEdge geometry maxConn newIdx nodes nb) idx = neighborsOf nodes idx := by
    rw [neighborsOf, neighborsOf, addBackEdge, getElem?_modify_ne _ _ (Ne.symm other)]
  have here : neighborsOf nodes nb = nodes[nb].neighbors := by rw [neighborsOf, getElem?_eq_getElem inside]; rfl
  have there : neighborsOf (addBackEdge geometry maxConn newIdx nodes nb) nb =
      if maxConn < (nodes[nb].neighbors ++ [newIdx]).length then
        pruneNeighbors geometry nodes nodes[nb].vector maxConn (nodes[nb].neighbors ++ [newIdx])
      else nodes[nb].neighbors ++ [newIdx] := by
    rw [neighborsOf, addBackEdge, getElem?_modify_eq, getElem?_eq_getElem inside]
    rfl
  refine ⟨?_, same, ?_⟩
  · refine ext_getElem? fun idx => ?_
    rw [getElem?_map, getElem?_map, addBackEdge, getElem?_modify]
    cases nodes[idx]? with
    | none => rfl
    | some node => by_cases target : nb = idx <;> simp [target, stored]
  · rw [there, here]
    by_cases full : maxConn < (nodes[nb].neighbors ++ [newIdx]).length
    · rw [if_pos full]
      have perm := geometry.sorting.perm (fun a b => decide (b.2 ≤ a.2))
        ((nodes[nb].neighbors ++ [newIdx]).map fun nb' => (nb', scoreOf geometry nodes nodes[nb].vector nb'))
      generalize sorted : geometry.sorting.sort _ _ = list at perm
      have ids := perm.map Prod.fst
      rw [List.map_map, show (Prod.fst ∘ fun nb' => (nb', scoreOf geometry nodes nodes[nb].vector nb')) = id from rfl,
        map_id] at ids
      rw [pruneNeighbors, byScore, sorted]
      refine ⟨?_, ⟨(list.drop maxConn).map Prod.fst, ?_⟩, fun room => ?_⟩
      · rw [length_map, length_take]
        exact Nat.min_le_left _ _
      · rw [← map_append, take_append_drop]
        exact ids.symm
      · rw [length_append, length_singleton] at full
        omega
    · rw [if_neg full]
      exact ⟨Nat.le_of_not_lt full, ⟨[], by rw [append_nil]⟩, fun _ => rfl⟩

theorem Linked.addBackEdge (linked : Linked maxConn nodes) {nb newIdx : Nat} (inside : nb < nodes.length)
    (inside' : newIdx < nodes.length) (apart : newIdx ≠ nb) (fresh : newIdx ∉ neighborsOf nodes nb) :
    Linked maxConn (addBackEdge geometry maxConn newIdx nodes nb) := by
  obtain ⟨kept, same, few, ⟨lost, perm⟩, _⟩ := addBackEdge_spec geometry maxConn newIdx inside
  have size : (EmbeddingIndex.addBackEdge geometry maxConn newIdx nodes nb).length = nodes.length := by
    rw [← length_map stored, kept, length_map]
  have distinct : (neighborsOf nodes nb ++ [newIdx]).Nodup :=
    nodup_append'.mpr ⟨linked.distinct nb, nodup_singleton _, disjoint_singleton.mpr fresh⟩
  rw [perm.nodup_iff] at distinct
  refine ⟨fun idx => ?_, fun idx => ?_, fun idx other member => ?_⟩
  all_goals by_cases here : idx = nb
  · exact here ▸ (nodup_append'.mp distinct).1
  · exact same idx here ▸ linked.distinct idx
  · exact here ▸ few
  · exact same idx here ▸ linked.few idx
  · subst here
    rw [size]
    rcases mem_append.mp (perm.mem_iff.mpr (mem_append_left _ member)) with old | new
    · exact linked.inside _ other old
    · rw [mem_singleton.mp new]
      exact ⟨inside', apart⟩
  · rw [same idx here] at member
    rw [size]
    exact linked.inside idx other member

/-- The back edges of a new node change the lists of its neighbours alone. -/
theorem backEdges_spec (geometry : Geometry Scalar Score) {newIdx : Nat} (inside : newIdx < nodes.length) {list : List Nat}
    (distinct : list.Nodup) (linked : Linked maxConn nodes)
    (free : ∀ nb ∈ list, nb < nodes.length ∧ newIdx ≠ nb ∧ newIdx ∉ neighborsOf nodes nb) :
    let after := list.foldl (addBackEdge geometry maxConn newIdx) nodes
    Linked maxConn after ∧ after.map stored = nodes.map stored ∧
      (∀ idx ∉ list, neighborsOf after idx = neighborsOf nodes idx) ∧
      ((∀ nb ∈ list, (neighborsOf nodes nb).length < maxConn) →
        ∀ nb ∈ list, neighborsOf after nb = neighborsOf nodes nb ++ [newIdx]) := by
  induction list generalizing nodes with
  | nil => exact ⟨linked, rfl, fun _ _ => rfl, fun _ => forall_mem_nil _⟩
  | cons nb list ih =>
      obtain ⟨absent, distinct⟩ := nodup_cons.mp distinct
      obtain ⟨⟨here, apart, fresh⟩, later⟩ := forall_mem_cons.mp free
      obtain ⟨kept, same, _, _, grown⟩ := addBackEdge_spec geometry maxConn newIdx here
      have size : (addBackEdge geometry maxConn newIdx nodes nb).length = nodes.length := by
        rw [← length_map stored, kept, length_map]
      have other (nb' : Nat) (member : nb' ∈ list) : nb' ≠ nb := fun wrong => absent (wrong ▸ member)
      obtain ⟨linked', kept', same', grown'⟩ := ih (size ▸ inside) distinct (linked.addBackEdge here inside apart fresh)
        fun nb' member => by
          rw [size, same nb' (other nb' member)]
          exact later nb' member
      refine ⟨linked', kept'.trans kept, fun idx outside => ?_, fun room => ?_⟩
      · obtain ⟨first, rest⟩ := not_or.mp (mem_cons.not.mp outside)
        rw [foldl_cons, same' idx rest, same idx first]
      · obtain ⟨first, rest⟩ := forall_mem_cons.mp room
        refine forall_mem_cons.mpr ⟨?_, fun nb' member => ?_⟩
        · rw [foldl_cons, same' nb absent, grown first]
        · rw [foldl_cons, grown' (fun nb'' member'' => by
            rw [same nb'' (other nb'' member'')]
            exact rest nb'' member'') nb' member, same nb' (other nb' member)]

end Graph

section Insert

variable {config : NswConfig} {index : NswIndex Scalar}

/-- A new node is connected to distinct older ones, and to some if there are any. -/
theorem neighborIndices_sound (geometry : Geometry Scalar Score) (linked : Linked config.maxConnections index.nodes)
    (filled : index.nodes ≠ []) (vector : List Scalar) :
    let list := neighborIndices geometry config index vector
    list.Nodup ∧ list.length ≤ config.maxConnections ∧ (∀ nb ∈ list, nb < index.nodes.length) ∧
      (1 ≤ config.maxConnections → 1 ≤ config.efConstruct → list ≠ []) := by
  have entry := Nat.mod_lt index.entryCounter (length_pos_iff.mpr filled)
  obtain ⟨distinct, inside, some_⟩ := @searchLoop_sound _ _ _ geometry _ vector config.efConstruct _
    (fun idx nb edge => (linked.inside idx nb edge).1) index.nodes.length (sound_start entry
      (scoreOf geometry index.nodes vector (index.entryCounter % index.nodes.length)))
  rw [neighborIndices, greedySearch, if_neg (by simpa using filled)]
  refine ⟨?_, ?_, fun nb member => ?_, fun room positive none => ?_⟩
  · rw [map_take]
    exact (take_sublist _ _).nodup distinct
  · rw [length_map, length_take]
    exact Nat.min_le_left _ _
  · obtain ⟨result, listed, rfl⟩ := mem_map.mp member
    exact inside result (mem_of_mem_take listed)
  · rcases take_eq_nil_iff.mp (map_eq_nil_iff.mp none) with wrong | wrong
    · omega
    · exact some_ positive wrong

/-- An insert keeps the lists sound. All nodes stay reachable if all chosen neighbours have room for the new node. -/
theorem insert_spec (geometry : Geometry Scalar Score) (linked : Linked config.maxConnections index.nodes) (id : Nat)
    (vector : List Scalar) :
    let after := (index.insert geometry config id vector).nodes
    Linked config.maxConnections after ∧
      after.map stored = index.nodes.map stored ++ [(id, geometry.normalize vector)] ∧
      (1 ≤ config.maxConnections → 1 ≤ config.efConstruct →
        (∀ nb ∈ neighborIndices geometry config index (geometry.normalize vector),
          (neighborsOf index.nodes nb).length < config.maxConnections) →
        (∀ idx < index.nodes.length, Reaches index.nodes 0 idx) → ∀ idx < after.length, Reaches after 0 idx) := by
  dsimp only
  rw [NswIndex.insert]
  by_cases empty : index.nodes = []
  · rw [if_pos (by simp [empty]), empty]
    refine ⟨Linked.edgeless fun idx => by cases idx <;> rfl, rfl, fun _ _ _ _ idx inside => ?_⟩
    rw [length_singleton, Nat.lt_one_iff] at inside
    exact inside ▸ .refl
  · rw [if_neg (by simpa using empty)]
    obtain ⟨distinct, few, older, some_⟩ := neighborIndices_sound geometry linked empty (geometry.normalize vector)
    dsimp only
    generalize neighborIndices geometry config index (geometry.normalize vector) = list at distinct few older some_
    generalize grown : index.nodes ++ [⟨id, geometry.normalize vector, list⟩] = nodes'
    have size : nodes'.length = index.nodes.length + 1 := by rw [← grown, length_append, length_singleton]
    have lists (idx : Nat) : neighborsOf nodes' idx = if idx = index.nodes.length then list
        else neighborsOf index.nodes idx := by rw [← grown, neighborsOf_append]
    have linked' : Linked config.maxConnections nodes' := by
      refine ⟨fun idx => ?_, fun idx => ?_, fun idx => ?_⟩
      all_goals
        rw [lists]
        split
      · exact distinct
      · exact linked.distinct idx
      · exact few
      · exact linked.few idx
      · rename_i last
        exact fun nb member => ⟨by have := older nb member; omega, by have := older nb member; omega⟩
      · exact fun nb member => ⟨size ▸ (linked.inside idx nb member).1.trans (Nat.lt_succ_self _),
          (linked.inside idx nb member).2⟩
    obtain ⟨final, kept, same, full⟩ := backEdges_spec geometry
      (show index.nodes.length < nodes'.length by omega) distinct linked'
      fun nb member => by
        have before := older nb member
        rw [lists, if_neg before.ne, size]
        exact ⟨by omega, before.ne', fun wrong => absurd (linked.inside nb _ wrong).1 (lt_irrefl _)⟩
    refine ⟨final, by rw [kept, ← grown, map_append]; rfl, fun room positive unpruned reached => ?_⟩
    have edges : ∀ idx < index.nodes.length, ∀ nb ∈ neighborsOf index.nodes idx,
        nb ∈ neighborsOf (list.foldl (addBackEdge geometry config.maxConnections index.nodes.length) nodes') idx := by
      intro idx inside nb member
      have before : neighborsOf nodes' idx = neighborsOf index.nodes idx := by rw [lists, if_neg inside.ne]
      by_cases listed : idx ∈ list
      · rw [full (fun nb' listed' => ?_) idx listed, before]
        · exact mem_append_left _ member
        · rw [lists, if_neg (older nb' listed').ne]
          exact unpruned nb' listed'
      · rwa [same idx listed, before]
    have old : ∀ idx < index.nodes.length,
        Reaches (list.foldl (addBackEdge geometry config.maxConnections index.nodes.length) nodes') 0 idx := by
      intro idx inside
      have path := reached idx inside
      induction path with
      | refl => exact .refl
      | @tail mid last _ edge ih =>
          have here : mid < index.nodes.length := by
            by_contra outside
            rw [neighborsOf, getElem?_eq_none (Nat.le_of_not_lt outside)] at edge
            cases edge
          exact (ih here).tail (edges mid here last edge)
    intro idx inside
    rw [← length_map stored, kept, length_map, size] at inside
    rcases Nat.lt_succ_iff_lt_or_eq.mp inside with before | rfl
    · exact old idx before
    · obtain ⟨nb, rest, chosen⟩ := exists_cons_of_ne_nil (some_ room positive)
      have listed : nb ∈ list := chosen ▸ mem_cons_self
      refine (old nb (older nb listed)).tail ?_
      rw [full (fun nb' listed' => ?_) nb listed]
      · exact mem_append_right _ (mem_singleton_self _)
      · rw [lists, if_neg (older nb' listed').ne]
        exact unpruned nb' listed'

end Insert

section Search

variable {Meta : Type} {config : NswConfig} {entries : List (List Scalar × Meta)} {index : Index Scalar Meta}

/-- The index holds the entries in the order in which they were inserted. -/
structure Built (geometry : Geometry Scalar Score) (config : NswConfig) (entries : List (List Scalar × Meta))
    (index : Index Scalar Meta) : Prop where
  linked : Linked config.maxConnections index.graph.nodes
  nodes : index.graph.nodes.map stored = entries.mapIdx fun id entry => (id, geometry.normalize entry.1)
  metadata : index.metadata = entries.mapIdx fun id entry => (id, entry.2)
  counted : index.nextId = entries.length

theorem Built.insert (built : Built geometry config entries index) (entry : List Scalar × Meta) :
    Built geometry config (entries ++ [entry]) (index.insert geometry config entry) := by
  obtain ⟨linked, kept, _⟩ := insert_spec geometry built.linked index.nextId entry.1
  refine ⟨linked, ?_, ?_, ?_⟩
  · rw [mapIdx_concat, ← built.nodes, ← built.counted]
    exact kept
  · rw [mapIdx_concat, ← built.metadata, ← built.counted]
    rfl
  · rw [length_append, ← built.counted]
    rfl

theorem built (geometry : Geometry Scalar Score) (config : NswConfig) (entries : List (List Scalar × Meta)) :
    Built geometry config entries (entries.foldl (Index.insert geometry config) Index.new) := by
  induction entries using List.reverseRecOn with
  | nil => exact ⟨Linked.edgeless fun _ => rfl, rfl, rfl, rfl⟩
  | append_singleton entries entry ih =>
      rw [foldl_append]
      exact ih.insert entry

/-- All neighbours that an insert chooses have room for the new node. -/
def Unpruned (geometry : Geometry Scalar Score) (config : NswConfig) (index : Index Scalar Meta)
    (entry : List Scalar × Meta) : Prop :=
  ∀ nb ∈ neighborIndices geometry config index.graph (geometry.normalize entry.1),
    (neighborsOf index.graph.nodes nb).length < config.maxConnections

theorem reached_unpruned (room : 1 ≤ config.maxConnections) (positive : 1 ≤ config.efConstruct)
    (unpruned : ∀ id (inside : id < entries.length),
      Unpruned geometry config ((entries.take id).foldl (Index.insert geometry config) Index.new) entries[id]) :
    ∀ idx < entries.length, Reaches (entries.foldl (Index.insert geometry config) Index.new).graph.nodes 0 idx := by
  induction entries using List.reverseRecOn with
  | nil => exact fun idx inside => absurd inside (Nat.not_lt_zero idx)
  | append_singleton entries entry ih =>
      have built := built geometry config entries
      have size : (entries.foldl (Index.insert geometry config) Index.new).graph.nodes.length = entries.length := by
        rw [← length_map stored, built.nodes, length_mapIdx]
      obtain ⟨_, kept, reaches⟩ := insert_spec geometry built.linked
        (entries.foldl (Index.insert geometry config) Index.new).nextId entry.1
      rw [foldl_append, foldl_cons, foldl_nil]
      intro idx inside
      have last := unpruned entries.length (by simp)
      rw [take_left, getElem_concat_length rfl] at last
      refine reaches room positive last (fun idx' inside' => ih (fun id before => ?_) idx' (size ▸ inside')) idx ?_
      · have earlier := unpruned id (by rw [length_append]; omega)
        rwa [take_append_of_le_length before.le, getElem_append_left before] at earlier
      · rw [← length_map stored, kept, length_append, length_map, size]
        rwa [length_append] at inside

/-- The similarity of a query and an entry. -/
def entryScore (geometry : Geometry Scalar Score) (query : List Scalar) (entry : List Scalar × Meta) : Score :=
  geometry.cosineSim (geometry.normalize query) (geometry.normalize entry.1)

/-- Answers are distinct entries with their own scores, the best ones among those that can be reached. -/
def Best (geometry : Geometry Scalar Score) (entries : List (List Scalar × Meta)) (query : List Scalar) (topK : Nat)
    (reached : List Nat) (found : List (Nat × Score × Meta)) : Prop :=
  found.length = min topK reached.length ∧ (found.map Prod.fst).Nodup ∧
    found.Pairwise (fun a b => b.2.1 ≤ a.2.1) ∧
    (∀ hit ∈ found, hit.1 ∈ reached ∧ ∃ entry, entries[hit.1]? = some entry ∧
      hit.2 = (entryScore geometry query entry, entry.2)) ∧
    ∀ idx ∈ reached, idx ∉ found.map Prod.fst → ∀ entry, entries[idx]? = some entry →
      ∀ hit ∈ found, entryScore geometry query entry ≤ hit.2.1

variable (built : Built geometry config entries index)
include built

omit [LinearOrder Score] in
theorem Built.node (idx : Nat) :
    index.graph.nodes[idx]?.map stored = entries[idx]?.map fun entry => (idx, geometry.normalize entry.1) := by
  rw [← getElem?_map, built.nodes, getElem?_mapIdx]

omit [LinearOrder Score] in
/-- A found node is answered with its index, its score and its metadata. -/
theorem Built.answer (results : List (Nat × Score)) (inside : ∀ result ∈ results, result.1 < entries.length) :
    (results.map fun result => (((index.graph.nodes[result.1]?).map NswNode.id).getD 0, result.2)).filterMap
        (fun result => (index.metadata.find? fun entry => entry.1 = result.1).map fun entry => (result.1, result.2, entry.2)) =
      results.filterMap fun result => entries[result.1]?.map fun entry => (result.1, result.2, entry.2) := by
  rw [filterMap_map]
  refine filterMap_congr fun result member => ?_
  have here := inside result member
  have id := congrArg (Option.map Prod.fst) (built.node result.1)
  rw [getElem?_eq_getElem here, Option.map_map, Option.map_some, Option.map_some] at id
  rw [Function.comp_apply, show index.graph.nodes[result.1]?.map NswNode.id = some result.1 from id, Option.getD_some,
    getElem?_eq_getElem here]
  have found : index.metadata.find? (fun entry => entry.1 = result.1) = some (result.1, entries[result.1].2) := by
    rw [built.metadata, find?_eq_some_iff_getElem]
    refine ⟨decide_eq_true rfl, result.1, by rwa [length_mapIdx], by rw [getElem_mapIdx], fun idx before => ?_⟩
    rw [getElem_mapIdx]
    simpa using before.ne
  rw [found]
  rfl

theorem Built.search (wide : entries.length ≤ config.efSearch) (query : List Scalar) (topK : Nat) :
    ∃ reached : List Nat, reached.Nodup ∧
      (∀ idx, idx ∈ reached ↔ idx < entries.length ∧ Reaches index.graph.nodes 0 idx) ∧
      Best geometry entries query topK reached (index.search geometry config query topK) := by
  have size : index.graph.nodes.length = entries.length := by
    rw [← length_map stored, built.nodes, length_mapIdx]
  by_cases empty : index.graph.nodes = []
  · have none : entries.length = 0 := by rw [← size, empty, length_nil]
    have nothing : index.search geometry config query topK = [] := by
      rw [Index.search, NswIndex.search, if_pos (Or.inl (by simp [empty])), filterMap_nil]
    refine ⟨[], nodup_nil, fun idx => by simp [none], ?_⟩
    rw [nothing]
    simp [Best]
  · have filled := length_pos_iff.mpr empty
    obtain ⟨reached, found, distinct, exact_⟩ := @searchLoop_wide _ _ _ geometry _ (geometry.normalize query) 0
      config.efSearch _ (fun idx nb edge => (built.linked.inside idx nb edge).1) (size ▸ wide) index.graph.nodes.length
      (sound_start filled (scoreOf geometry index.graph.nodes (geometry.normalize query) 0))
      ⟨mem_cons_self, rfl, forall_mem_singleton.mpr .refl,
        forall_mem_singleton.mpr (Or.inr (Or.inl mem_cons_self))⟩ (Nat.add_comm _ _).le
    have inside (idx : Nat) (path : Reaches index.graph.nodes 0 idx) : idx < entries.length := by
      rw [← size]
      rcases ReflTransGen.cases_tail path with rfl | ⟨mid, _, edge⟩
      · exact filled
      · exact (built.linked.inside mid idx edge).1
    have score (idx : Nat) (entry : List Scalar × Meta) (here : entries[idx]? = some entry) :
        scoreOf geometry index.graph.nodes (geometry.normalize query) idx = entryScore geometry query entry := by
      have vector := congrArg (Option.map Prod.snd) (built.node idx)
      rw [here, Option.map_map, Option.map_some, Option.map_some] at vector
      rw [scoreOf, show index.graph.nodes[idx]?.map NswNode.vector = _ from vector]
      rfl
    generalize scored : (reached.map fun idx =>
      (idx, scoreOf geometry index.graph.nodes (geometry.normalize query) idx)) = results at found
    have own (result : Nat × Score) (member : result ∈ results) : result.1 ∈ reached ∧
        result.2 = scoreOf geometry index.graph.nodes (geometry.normalize query) result.1 := by
      rw [← scored] at member
      obtain ⟨idx, listed, rfl⟩ := mem_map.mp member
      exact ⟨listed, rfl⟩
    have indices : results.map Prod.fst = reached := by
      rw [← scored, List.map_map]
      exact map_id _
    have ranks : Ranks (fun a b : Nat × Score => decide (b.2 ≤ a.2)) results := ⟨fun _ _ _ _ _ _ first second => decide_eq_true ((of_decide_eq_true second).trans (of_decide_eq_true first)),
      fun a _ b _ => (le_total b.2 a.2).imp decide_eq_true decide_eq_true⟩
    obtain ⟨count, order, rest, perm, least⟩ := geometry.sorting.take_sort ranks topK
    have answer : index.search geometry config query topK =
        ((geometry.sorting.sort (fun a b => decide (b.2 ≤ a.2)) results).take topK).filterMap fun result =>
          entries[result.1]?.map fun entry => (result.1, result.2, entry.2) := by
      rw [← built.answer _ fun result member => inside _ ((exact_ _).mp (own result (perm.mem_iff.mpr
        (mem_append_left _ member))).1), Index.search, NswIndex.search]
      by_cases none : topK = 0
      · rw [if_pos (Or.inr none), none, take_zero, map_nil]
      · rw [if_neg (by simpa using ⟨empty, none⟩), greedySearch, if_neg (by simpa using empty), byScore, found]
    rw [answer]
    generalize (geometry.sorting.sort (fun a b => decide (b.2 ≤ a.2)) results).take topK = kept at count order perm least
    have known (result : Nat × Score) (member : result ∈ kept) : ∃ entry, entries[result.1]? = some entry ∧
        result.1 ∈ reached ∧ result.2 = entryScore geometry query entry := by
      obtain ⟨listed, value⟩ := own result (perm.mem_iff.mpr (mem_append_left _ member))
      have here := getElem?_eq_getElem (inside _ ((exact_ _).mp listed))
      exact ⟨_, here, listed, value.trans (score _ _ here)⟩
    have pairs : (kept.filterMap fun result => entries[result.1]?.map fun entry =>
        (result.1, result.2, entry.2)).map (fun hit => (hit.1, hit.2.1)) = kept := by
      rw [map_filterMap]
      refine (filterMap_congr fun result member => ?_).trans filterMap_some
      obtain ⟨entry, here, _⟩ := known result member
      rw [here]
      rfl
    have ids : (kept.filterMap fun result => entries[result.1]?.map fun entry =>
        (result.1, result.2, entry.2)).map Prod.fst = kept.map Prod.fst := by
      conv_rhs => rw [← pairs, List.map_map]
      rfl
    have split := perm.map Prod.fst
    rw [indices, map_append] at split
    refine ⟨reached, distinct, fun idx => ⟨fun listed => ⟨inside idx ((exact_ idx).mp listed), (exact_ idx).mp listed⟩,
      fun both => (exact_ idx).mpr both.2⟩, ?_, ?_, ?_, fun hit member => ?_, fun idx listed omitted entry here hit member => ?_⟩
    · rw [← length_map fun hit : Nat × Score × Meta => (hit.1, hit.2.1), pairs, count, ← indices,
        length_map]
    · rw [ids]
      exact (nodup_append'.mp (split.nodup_iff.mp distinct)).1
    · rw [← pairs] at order
      exact (pairwise_map.mp order).imp of_decide_eq_true
    · obtain ⟨result, listed, made⟩ := mem_filterMap.mp member
      obtain ⟨entry, here, reached', value⟩ := known result listed
      rw [here, Option.map_some, Option.some.injEq] at made
      rw [← made]
      exact ⟨reached', entry, here, by rw [value]⟩
    · rw [ids] at omitted
      obtain ⟨other, behind, rfl⟩ := mem_map.mp
        (((mem_append.mp (split.mem_iff.mp listed)).resolve_left omitted))
      obtain ⟨_, value⟩ := own other (perm.mem_iff.mpr (mem_append_right _ behind))
      have pair : (hit.1, hit.2.1) ∈ kept := pairs ▸ mem_map_of_mem member
      rw [← score _ _ here, ← value]
      exact of_decide_eq_true (least _ pair _ behind)

omit built

/-- Every neighbour list is sound, all nodes are reachable if no insert chose a neighbour without room, and a wide
search answers with the best ones of the nodes that can be reached. -/
theorem search_reached (geometry : Geometry Scalar Score) (config : NswConfig) (entries : List (List Scalar × Meta))
    (room : 1 ≤ config.maxConnections) (positive : 1 ≤ config.efConstruct) :
    let index := entries.foldl (Index.insert geometry config) Index.new
    index.graph.nodes.length = entries.length ∧ Linked config.maxConnections index.graph.nodes ∧
      ((∀ id (inside : id < entries.length),
        Unpruned geometry config ((entries.take id).foldl (Index.insert geometry config) Index.new) entries[id]) →
        ∀ idx < entries.length, Reaches index.graph.nodes 0 idx) ∧
      (entries.length ≤ config.efSearch → ∀ query topK, ∃ reached : List Nat, reached.Nodup ∧
        (∀ idx, idx ∈ reached ↔ idx < entries.length ∧ Reaches index.graph.nodes 0 idx) ∧
        Best geometry entries query topK reached (index.search geometry config query topK)) := by
  have built := built geometry config entries
  refine ⟨?_, built.linked, reached_unpruned room positive, built.search⟩
  rw [← length_map stored, built.nodes, length_mapIdx]

/-- Vectors over the naturals and their products. -/
def products : Geometry Nat Nat := ⟨id, fun a b => (a.zipWith (· * ·) b).sum, StableSort.merging.toUnstableSort⟩

theorem search_reached_two : Reaches
    ([([1, 0], ()), ([0, 1], ())].foldl (Index.insert products ⟨1, 2, 1⟩) Index.new).graph.nodes 0 1 := by
  refine (search_reached products ⟨1, 2, 1⟩ [([1, 0], ()), ([0, 1], ())] (by decide) (by decide)).2.2.1
    (fun id inside => ?_) 1 (by decide)
  match id, inside with
  | 0, _ => exact forall_mem_nil _
  | 1, _ =>
      show ∀ nb ∈ [0], _
      exact forall_mem_singleton.mpr Nat.one_pos

/-- A node drops its edge to a newer and less similar one, and nothing else leads there. -/
theorem search_misses :
    let index := [([1, 0], ()), ([1, 0], ()), ([0, 1], ())].foldl (Index.insert products ⟨1, 3, 1⟩) Index.new
    ¬Reaches index.graph.nodes 0 2 ∧ (index.search products ⟨1, 3, 1⟩ [0, 1] 3).length < 3 := by
  intro index
  have zero : neighborsOf index.graph.nodes 0 = [1] := by
    have kept := @StableSort.sort_pair (Nat × Nat) (fun a b => decide (b.2 ≤ a.2)) (1, 1) (2, 0) StableSort.merging
      (by decide) (by decide) (by decide)
    exact congrArg (fun sorted : List (Nat × Nat) => (sorted.take 1).map Prod.fst) kept
  have low (idx : Nat) (path : Reaches index.graph.nodes 0 idx) : idx < 2 := by
    induction path with
    | refl => decide
    | @tail mid last _ edge ih =>
        rcases Nat.lt_succ_iff_lt_or_eq.mp ih with first | rfl
        · rw [Nat.lt_one_iff.mp first, zero, mem_singleton] at edge
          omega
        · rw [mem_singleton.mp (show last ∈ [0] from edge)]
          decide
  obtain ⟨reached, distinct, exact_, answered, _⟩ := (built products ⟨1, 3, 1⟩
    [([1, 0], ()), ([1, 0], ()), ([0, 1], ())]).search (le_refl 3) [0, 1] 3
  have few := distinct.length_le_of_subset fun idx listed =>
    mem_range.mpr (low idx ((exact_ idx).mp listed).2)
  refine ⟨fun path => absurd (low 2 path) (by decide), answered.trans_lt ?_⟩
  exact (Nat.min_le_right _ _).trans_lt (few.trans_lt (by decide))

end Search

end Pictor.EmbeddingIndex
