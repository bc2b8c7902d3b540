import Pictor.Construction.Routing.MultiModel
import Pictor.Library.Nearest

namespace Pictor.ConsistentHashRing
open List

variable {ring : ConsistentHashRing} {ids : List String} {nodeId : String}

/-- The virtual nodes of a node. -/
def replicasOf (replicas : Nat) (nodeId : String) : List VNode := (List.range replicas).map (vnode nodeId)

theorem nodeId_of_mem {replicas : Nat} {v : VNode} (member : v ∈ replicasOf replicas nodeId) : v.nodeId = nodeId := by
  obtain ⟨i, _, rfl⟩ := mem_map.mp member
  rfl

theorem filter_replicasOf (replicas : Nat) (ids : List String) (nodeId : String) :
    (ids.flatMap (replicasOf replicas)).filter (fun v => v.nodeId ≠ nodeId) =
      (ids.filter (· != nodeId)).flatMap (replicasOf replicas) := by
  induction ids with
  | nil => rfl
  | cons id ids ih =>
      rw [flatMap_cons, filter_append, ih]
      by_cases same : id = nodeId
      · rw [filter_cons_of_neg (by simp [same]), filter_eq_nil_iff.mpr]
        · rfl
        · intro v member
          rw [nodeId_of_mem member, same]
          simp
      · rw [filter_cons_of_pos (by simpa using same), flatMap_cons, filter_eq_self.mpr]
        intro v member
        rw [nodeId_of_mem member]
        exact decide_eq_true same

theorem countP_replicasOf (replicas : Nat) (ids : List String) (nodeId : String) :
    (ids.flatMap (replicasOf replicas)).countP (fun v => v.nodeId = nodeId) = replicas * ids.count nodeId := by
  induction ids with
  | nil => rfl
  | cons id ids ih =>
      rw [flatMap_cons, countP_append, ih]
      by_cases same : id = nodeId
      · have all : (replicasOf replicas id).countP (fun v => v.nodeId = nodeId) = replicas := by
          rw [countP_eq_length.mpr, replicasOf, length_map, length_range]
          intro v member
          rw [nodeId_of_mem member]
          exact decide_eq_true same
        rw [all, same, count_cons_self, Nat.mul_add_one, Nat.add_comm]
      · have none : (replicasOf replicas id).countP (fun v => v.nodeId = nodeId) = 0 := by
          rw [countP_eq_zero]
          intro v member
          rw [nodeId_of_mem member]
          simpa using same
        rw [none, count_cons_of_ne same, Nat.zero_add]

/-- The ring holds the virtual nodes of some nodes, in the order of their hashes. -/
structure Holds (ring : ConsistentHashRing) (ids : List String) : Prop where
  sorted : ring.vnodes.Pairwise fun a b => a.hash ≤ b.hash
  vnodes : ring.vnodes.Perm (ids.flatMap (replicasOf ring.replicas))

namespace Holds

variable (holds : ring.Holds ids)
include holds

theorem addNode (nodeId : String) : (ring.addNode nodeId).Holds (nodeId :: ids) where
  sorted := by
    have sorted := @pairwise_mergeSort _ (fun a b : VNode => decide (a.hash ≤ b.hash))
      (fun a b c first second => decide_eq_true (UInt64.le_trans (of_decide_eq_true first) (of_decide_eq_true second)))
      (fun a b => by simpa using UInt64.le_total a.hash b.hash)
      (ring.vnodes ++ (List.range ring.replicas).map (vnode nodeId))
    exact sorted.imp of_decide_eq_true
  vnodes := by
    rw [flatMap_cons]
    exact (mergeSort_perm _ _).trans (perm_append_comm.trans (holds.vnodes.append_left _))

theorem removeNode (nodeId : String) : (ring.removeNode nodeId).Holds (ids.filter (· != nodeId)) where
  sorted := holds.sorted.sublist filter_sublist
  vnodes := by
    have left := holds.vnodes.filter fun v => v.nodeId ≠ nodeId
    rw [filter_replicasOf] at left
    exact left

/-- A ring has as many virtual nodes of a node as replicas, or none. -/
theorem count (nodup : ids.Nodup) (nodeId : String) :
    ring.vnodes.countP (fun v => v.nodeId = nodeId) = if nodeId ∈ ids then ring.replicas else 0 := by
  rw [holds.vnodes.countP_eq, countP_replicasOf]
  split
  case isTrue member => rw [count_eq_one_of_mem nodup member, Nat.mul_one]
  case isFalse missing => rw [count_eq_zero_of_not_mem missing, Nat.mul_zero]

theorem mem_vnodes {v : VNode} : v ∈ ring.vnodes ↔ v.nodeId ∈ ids ∧ ∃ i < ring.replicas, v = vnode v.nodeId i := by
  rw [holds.vnodes.mem_iff, mem_flatMap]
  constructor
  · intro ⟨id, present, member⟩
    obtain ⟨i, inside, rfl⟩ := mem_map.mp member
    exact ⟨present, i, mem_range.mp inside, rfl⟩
  · intro ⟨present, i, inside, same⟩
    exact ⟨v.nodeId, present, mem_map.mpr ⟨i, mem_range.mpr inside, same.symm⟩⟩

end Holds

/-- What was collected before does not change what is found first. -/
theorem find_known {result more : List String} (p : String → Bool) (known : ∀ id ∈ more, id ∈ result) :
    (result ++ more).find? p = result.find? p := by
  rw [find?_append]
  cases found : result.find? p with
  | some id => rfl
  | none =>
      rw [Option.none_or, find?_eq_none]
      intro id member
      exact find?_eq_none.mp found id (known id member)

/-- A walk that may collect every node finds the node that comes first among the wanted ones. -/
theorem find_walk {count : Nat} {known : List String} (enough : known.length ≤ count) (p : String → Bool)
    {vnodes : List VNode} (inside : ∀ v ∈ vnodes, v.nodeId ∈ known) {result : List String} (nodup : result.Nodup)
    (collected : ∀ id ∈ result, id ∈ known) :
    (walk count vnodes result).find? p = (result ++ vnodes.map VNode.nodeId).find? p := by
  induction vnodes generalizing result with
  | nil => rw [walk, map_nil, append_nil]
  | cons v rest ih =>
      have here := inside v mem_cons_self
      have behind : ∀ v ∈ rest, v.nodeId ∈ known := fun v member => inside v (mem_cons_of_mem _ member)
      have next : ∀ next : List String, next.Nodup → (∀ id ∈ next, id ∈ known) →
          (if count ≤ next.length then next else walk count rest next).find? p =
            (next ++ rest.map VNode.nodeId).find? p := by
        intro next nodup collected
        split
        case isTrue full =>
          have all := (subperm_of_subset nodup collected).perm_of_length_le (enough.trans full)
          refine (find_known p fun id member => ?_).symm
          obtain ⟨other, later, rfl⟩ := mem_map.mp member
          exact all.mem_iff.mpr (behind other later)
        case isFalse => exact ih behind nodup collected
      have split : result ++ (v :: rest).map VNode.nodeId = (result ++ [v.nodeId]) ++ rest.map VNode.nodeId :=
        append_cons _ _ _
      rw [walk, split]
      by_cases old : v.nodeId ∈ result
      · have same := @find_known result [v.nodeId] p fun id member => by rwa [mem_singleton.mp member]
        simp only [old, if_true]
        rw [next result nodup collected, find?_append, find?_append, same]
      · simp only [old, if_false]
        apply next
        · exact List.Nodup.append nodup (nodup_singleton _) (by simpa using old)
        · intro id member
          rcases mem_append.mp member with earlier | new
          · exact collected id earlier
          · rwa [mem_singleton.mp new]

/-- The virtual nodes in clockwise order from a key. -/
def fromKey (ring : ConsistentHashRing) (key : String) : List VNode :=
  ring.vnodes.dropWhile (fun v => v.hash < fnv1aHash key) ++ ring.vnodes.takeWhile fun v => v.hash < fnv1aHash key

theorem rotate_startAt (ring : ConsistentHashRing) (key : String) :
    ring.vnodes.rotate (ring.startAt (fnv1aHash key)) = ring.fromKey key := by
  rw [startAt, rotate_mod, fromKey]
  have split := @takeWhile_append_dropWhile _ (fun v : VNode => decide (v.hash < fnv1aHash key)) ring.vnodes
  have rotated := rotate_append_length_eq (ring.vnodes.takeWhile fun v => v.hash < fnv1aHash key)
    (ring.vnodes.dropWhile fun v => v.hash < fnv1aHash key)
  rwa [split] at rotated

/-- The nodes from a key, as far as they are needed, begin with the same wanted node as all of them. -/
theorem find_getNodes {count : Nat} {known : List String} (holds : ring.Holds known) (enough : known.length ≤ count)
    (positive : 0 < count) (key : String) (p : String → Bool) :
    (ring.getNodes key count).find? p = ((ring.fromKey key).find? fun v => p v.nodeId).map VNode.nodeId := by
  have inside : ∀ v ∈ ring.fromKey key, v.nodeId ∈ known := by
    intro v member
    rw [← rotate_startAt, mem_rotate] at member
    exact (holds.mem_vnodes.mp member).1
  have walked := find_walk enough p inside nodup_nil (fun _ impossible => (nomatch impossible))
  rw [nil_append, find?_map] at walked
  rw [getNodes, rotate_startAt]
  by_cases empty : ring.vnodes = []
  · rw [fromKey, empty]
    rfl
  · rw [if_neg (by simp [empty, positive.ne']), walked]
    rfl

/-- The first wanted node clockwise from a key is the one of the nearest wanted virtual node. -/
theorem getNodes_nearest {count : Nat} {known : List String} (holds : ring.Holds known) (enough : known.length ≤ count)
    (positive : 0 < count) {key : String} {p : String → Bool}
    (found : (ring.getNodes key count).find? p = some nodeId) : ∃ v, v.nodeId = nodeId ∧
      Nearest (fun v => clockwise (fnv1aHash key) v.hash) (fun v => v ∈ ring.vnodes ∧ p v.nodeId = true) v := by
  rw [find_getNodes holds enough positive, Option.map_eq_some_iff] at found
  obtain ⟨v, found, same⟩ := found
  have nearest := nearest_find (pairwise_clockwise (fnv1aHash key) holds.sorted) found
  refine ⟨v, same, nearest.shrink (fun b member => ?_) ?_⟩
  · rwa [← mem_rotate, rotate_startAt] at member
  · have member := nearest.member
    change v ∈ ring.fromKey key ∧ _ at member
    rwa [← rotate_startAt, mem_rotate] at member

/-- No wanted node is found only if there is none. -/
theorem getNodes_none {count : Nat} {known : List String} (holds : ring.Holds known) (enough : known.length ≤ count)
    (positive : 0 < count) {key : String} {p : String → Bool} (missing : (ring.getNodes key count).find? p = none)
    {v : VNode} (member : v ∈ ring.vnodes) : p v.nodeId = false := by
  rw [find_getNodes holds enough positive, Option.map_eq_none_iff, find?_eq_none] at missing
  rw [← @mem_rotate _ _ _ (ring.startAt (fnv1aHash key)), rotate_startAt] at member
  exact Bool.eq_false_iff.mpr (missing v member)

end Pictor.ConsistentHashRing

namespace Pictor.NodeRegistry
open ConsistentHashRing List

inductive Event where
  | register (info : NodeInfo)
  | deregister (nodeId : String)
  | markHealthy (nodeId : String) (healthy : Bool) (now : UInt64)

def apply (registry : NodeRegistry) : Event → NodeRegistry
  | .register info => registry.register info
  | .deregister nodeId => registry.deregister nodeId
  | .markHealthy nodeId healthy now => registry.markHealthy nodeId healthy now

/-- The registry after a history. -/
def run (events : List Event) : NodeRegistry := events.foldl apply new

/-- The histories register only nodes of a list. -/
def Registers (ids : List String) (events : List Event) : Prop := ∀ info, .register info ∈ events → info.id ∈ ids

/-- The hashes of the virtual nodes of a list of nodes do not collide. -/
def NoCollisions (ids : List String) : Prop := ((ids.flatMap (replicasOf 150)).map VNode.hash).Nodup

instance (ids : List String) : Decidable (NoCollisions ids) := inferInstanceAs (Decidable (List.Nodup _))

/-- The remainders of the numbers differ. The bits of `seen` stand for the earlier ones. -/
def spread (modulus : Nat) : List Nat → Nat → Bool
  | [], _ => true
  | number :: numbers, seen =>
      !seen.testBit (number % modulus) && spread modulus numbers (seen ||| 1 <<< (number % modulus))

theorem spread_nodup {modulus : Nat} {numbers : List Nat} {seen : Nat} (spreads : spread modulus numbers seen = true) :
    numbers.Nodup ∧ ∀ number ∈ numbers, seen.testBit (number % modulus) = false := by
  induction numbers generalizing seen with
  | nil => exact ⟨nodup_nil, nofun⟩
  | cons number numbers ih =>
      rw [spread, Bool.and_eq_true, Bool.not_eq_true'] at spreads
      obtain ⟨distinct, unseen⟩ := ih spreads.2
      have later (other : Nat) (member : other ∈ numbers) : seen.testBit (other % modulus) = false ∧
          other % modulus ≠ number % modulus := by
        have free := unseen other member
        rw [Nat.testBit_or, Bool.or_eq_false_iff, Nat.shiftLeft_eq, Nat.one_mul, Nat.testBit_two_pow] at free
        exact ⟨free.1, fun same => of_decide_eq_false free.2 same.symm⟩
      refine ⟨nodup_cons.mpr ⟨fun member => (later number member).2 rfl, distinct⟩, fun other member => ?_⟩
      rcases mem_cons.mp member with rfl | member
      · exact spreads.1
      · exact (later other member).1

/-- The pairs of hashes need not be compared one by one. -/
theorem noCollisions_of_spread {ids : List String} (modulus : Nat)
    (spreads : spread modulus (((ids.flatMap (replicasOf 150)).map VNode.hash).map UInt64.toNat) 0 = true) :
    NoCollisions ids := List.Nodup.of_map UInt64.toNat (spread_nodup spreads).1

/-- The node is registered and healthy. -/
def Serves (registry : NodeRegistry) (nodeId : String) : Prop :=
  ∃ info, registry.nodes.lookup nodeId = some info ∧ info.healthy = true

/-- The virtual node belongs to a healthy node. -/
def ServesAt (registry : NodeRegistry) (v : VNode) : Prop :=
  registry.Serves v.nodeId ∧ ∃ i < 150, v = vnode v.nodeId i

/-- The node of the first virtual node of a healthy node, clockwise from the hash of the key. -/
def FirstHealthy (registry : NodeRegistry) (key nodeId : String) : Prop :=
  ∃ v, v.nodeId = nodeId ∧ Nearest (fun v => clockwise (fnv1aHash key) v.hash) registry.ServesAt v

/-- The node to which a key is routed. -/
def routedTo (registry : NodeRegistry) (key : String) : Option String := (registry.routeRequest key).map NodeInfo.id

/-- The ring holds the virtual nodes of the registered nodes, which are registered under their names. -/
structure Aligned (ids : List String) (registry : NodeRegistry) : Prop where
  ring : registry.ring.Holds registry.nodes.keys
  replicas : registry.ring.replicas = 150
  named : ∀ nodeId info, registry.nodes.lookup nodeId = some info → info.id = nodeId
  known : ∀ nodeId ∈ registry.nodes, nodeId ∈ ids

variable {registry before after : NodeRegistry} {ids : List String} {events : List Event} {nodeId key : String}

theorem Serves.registered (serves : registry.Serves nodeId) : nodeId ∈ registry.nodes := by
  obtain ⟨info, found, _⟩ := serves
  exact AList.lookup_isSome.mp (by rw [found]; rfl)

namespace Aligned

theorem register (aligned : Aligned ids registry) {info : NodeInfo} (known : info.id ∈ ids) :
    Aligned ids (registry.register info) where
  ring := by
    have erased : registry.nodes.keys.erase info.id = registry.nodes.keys.filter (· != info.id) :=
      List.Nodup.erase_eq_filter registry.nodes.keys_nodup info.id
    rw [NodeRegistry.register]
    dsimp only
    rw [AList.keys_insert]
    split
    case isTrue present =>
      rw [erased]
      exact (aligned.ring.removeNode info.id).addNode info.id
    case isFalse missing =>
      rw [erase_of_not_mem fun inside => missing (AList.mem_keys.mpr inside)]
      exact aligned.ring.addNode info.id
  replicas := by
    rw [NodeRegistry.register]
    dsimp only
    split
    · exact aligned.replicas
    · exact aligned.replicas
  named nodeId found same := by
    rw [NodeRegistry.register] at same
    by_cases new : nodeId = info.id
    · rw [new, AList.lookup_insert] at same
      rw [new, ← Option.some.inj same]
    · rw [AList.lookup_insert_ne new] at same
      exact aligned.named nodeId found same
  known nodeId member := by
    rcases (AList.mem_insert _).mp member with rfl | old
    · exact known
    · exact aligned.known nodeId old

theorem deregister (aligned : Aligned ids registry) (nodeId : String) : Aligned ids (registry.deregister nodeId) where
  ring := by
    rw [NodeRegistry.deregister]
    dsimp only
    rw [AList.keys_erase, List.Nodup.erase_eq_filter registry.nodes.keys_nodup]
    exact aligned.ring.removeNode nodeId
  replicas := aligned.replicas
  named other info found := by
    by_cases same : other = nodeId
    · rw [same, NodeRegistry.deregister, AList.lookup_erase] at found
      exact (nomatch found)
    · rw [NodeRegistry.deregister, AList.lookup_erase_ne same] at found
      exact aligned.named other info found
  known other member := aligned.known other (AList.mem_erase.mp member).2

theorem markHealthy (aligned : Aligned ids registry) (nodeId : String) (healthy : Bool) (now : UInt64) :
    Aligned ids (registry.markHealthy nodeId healthy now) := by
  rw [NodeRegistry.markHealthy]
  cases found : registry.nodes.lookup nodeId with
  | none => exact aligned
  | some node =>
      have present : nodeId ∈ registry.nodes := AList.lookup_isSome.mp (by rw [found]; rfl)
      constructor
      · have perm : (nodeId :: registry.nodes.keys.erase nodeId).Perm registry.nodes.keys :=
          (perm_cons_erase (AList.mem_keys.mp present)).symm
        refine ⟨aligned.ring.sorted, aligned.ring.vnodes.trans ?_⟩
        dsimp only
        rw [AList.keys_insert]
        exact (perm.flatMap_right _).symm
      · exact aligned.replicas
      · intro other info same
        by_cases new : other = nodeId
        · rw [new, AList.lookup_insert] at same
          rw [new, ← Option.some.inj same]
          exact aligned.named nodeId node found
        · rw [AList.lookup_insert_ne new] at same
          exact aligned.named other info same
      · intro other member
        rcases (AList.mem_insert _).mp member with rfl | old
        · exact aligned.known _ present
        · exact aligned.known other old

theorem run (registers : Registers ids events) : Aligned ids (run events) := by
  rw [NodeRegistry.run]
  induction events using List.reverseRecOn with
  | nil => exact ⟨⟨List.Pairwise.nil, List.Perm.refl _⟩, rfl, fun _ _ impossible => (nomatch impossible),
      fun _ impossible => (nomatch impossible)⟩
  | append_singleton events event ih =>
      have aligned := ih fun info member => registers info (mem_append_left _ member)
      rw [foldl_append]
      cases event with
      | register info => exact aligned.register (registers info (mem_append_right _ mem_cons_self))
      | deregister nodeId => exact aligned.deregister nodeId
      | markHealthy nodeId healthy now => exact aligned.markHealthy nodeId healthy now

end Aligned

end Pictor.NodeRegistry

namespace Pictor.NodeRegistry
open ConsistentHashRing List

variable {registry before after : NodeRegistry} {ids : List String} {events : List Event} {nodeId key : String}
  {info : NodeInfo}

/-- The health of a node, as far as the registry knows. -/
def healthyId (registry : NodeRegistry) (nodeId : String) : Bool :=
  ((registry.nodes.lookup nodeId).filter NodeInfo.healthy).isSome

theorem healthyId_iff : registry.healthyId nodeId = true ↔ registry.Serves nodeId := by
  rw [healthyId, Option.isSome_iff_exists, Serves]
  apply exists_congr
  intro info
  exact Option.filter_eq_some_iff

namespace Aligned

/-- The candidates are enough to meet every node. -/
theorem enough (registry : NodeRegistry) : registry.nodes.keys.length ≤ max registry.nodes.entries.length 1 := by
  rw [AList.keys, List.keys, length_map]
  exact le_max_left _ _

theorem routeRequest_eq (registry : NodeRegistry) (key : String) : registry.routeRequest key =
      ((registry.ring.getNodes key (max registry.nodes.entries.length 1)).find? registry.healthyId).bind
        registry.nodes.lookup := by
  rw [routeRequest]
  generalize registry.ring.getNodes key (max registry.nodes.entries.length 1) = candidates
  induction candidates with
  | nil => rfl
  | cons candidate rest ih =>
      rw [findSome?_cons, find?_cons, healthyId]
      cases found : registry.nodes.lookup candidate with
      | none => exact ih
      | some info =>
          cases healthy : info.healthy with
          | true =>
              rw [Option.filter_some_pos healthy]
              exact found.symm
          | false =>
              rw [Option.filter_some_neg healthy]
              exact ih

/-- A request goes to the first healthy node. -/
theorem routed (aligned : Aligned ids registry) (found : registry.routeRequest key = some info) :
    registry.nodes.lookup info.id = some info ∧ info.healthy = true ∧ registry.FirstHealthy key info.id := by
  rw [routeRequest_eq, Option.bind_eq_some_iff] at found
  obtain ⟨nodeId, first, found⟩ := found
  obtain ⟨v, rfl, nearest⟩ :=
    getNodes_nearest aligned.ring (enough registry) (Nat.lt_of_lt_of_le Nat.one_pos (le_max_right _ _)) first
  obtain ⟨other, same, healthy⟩ := healthyId_iff.mp nearest.member.2
  rw [found, Option.some.injEq] at same
  rw [aligned.named _ _ found]
  refine ⟨found, by rw [same]; exact healthy, v, rfl, nearest.shrink (fun b serves => ?_) ?_⟩
  · refine ⟨aligned.ring.mem_vnodes.mpr ⟨AList.mem_keys.mp serves.1.registered, ?_⟩, healthyId_iff.mpr serves.1⟩
    rw [aligned.replicas]
    exact serves.2
  · obtain ⟨member, serves⟩ := nearest.member
    obtain ⟨_, i, inside, same⟩ := aligned.ring.mem_vnodes.mp member
    rw [aligned.replicas] at inside
    exact ⟨healthyId_iff.mp serves, i, inside, same⟩

/-- A request is not served only if no node is healthy. -/
theorem unrouted (aligned : Aligned ids registry) (missing : registry.routeRequest key = none) (nodeId : String) :
    ¬registry.Serves nodeId := by
  intro serves
  rw [routeRequest_eq, Option.bind_eq_none_iff] at missing
  cases first : (registry.ring.getNodes key (max registry.nodes.entries.length 1)).find? registry.healthyId with
  | some other =>
      obtain ⟨info, found, _⟩ := healthyId_iff.mp (find?_some first)
      rw [missing other first] at found
      exact (nomatch found)
  | none =>
      have member : vnode nodeId 0 ∈ registry.ring.vnodes := by
        refine aligned.ring.mem_vnodes.mpr ⟨AList.mem_keys.mp serves.registered, 0, ?_, rfl⟩
        rw [aligned.replicas]
        decide
      have sick := getNodes_none aligned.ring (enough registry)
        (Nat.lt_of_lt_of_le Nat.one_pos (le_max_right _ _)) first member
      rw [← healthyId_iff] at serves
      exact Bool.false_ne_true (sick.symm.trans serves)

theorem routedTo_some (aligned : Aligned ids registry) (routed : registry.routedTo key = some nodeId) :
    registry.Serves nodeId ∧ registry.FirstHealthy key nodeId := by
  obtain ⟨info, found, rfl⟩ := Option.map_eq_some_iff.mp routed
  obtain ⟨found, healthy, first⟩ := aligned.routed found
  exact ⟨⟨info, found, healthy⟩, first⟩

/-- The virtual nodes of two nodes in the list have different positions. -/
theorem apart (distinct : NoCollisions ids) {v w : VNode} (known : v.nodeId ∈ ids) (known' : w.nodeId ∈ ids)
    (vnode_v : ∃ i < 150, v = vnode v.nodeId i) (vnode_w : ∃ i < 150, w = vnode w.nodeId i)
    (same : v.hash = w.hash) : v = w := by
  have inside : ∀ {v : VNode}, v.nodeId ∈ ids → (∃ i < 150, v = vnode v.nodeId i) → v ∈ ids.flatMap (replicasOf 150) := by
    intro v known ⟨i, small, made⟩
    exact mem_flatMap.mpr ⟨v.nodeId, known, mem_map.mpr ⟨i, mem_range.mpr small, made.symm⟩⟩
  exact inj_on_of_nodup_map distinct (inside known vnode_v) (inside known' vnode_w) same

/-- If a key moves, then its old node no longer serves or its new node did not serve before. -/
theorem moved (distinct : NoCollisions ids) (aligned : Aligned ids before) (aligned' : Aligned ids after)
    (changed : after.routedTo key ≠ before.routedTo key) :
    (∃ nodeId, before.routedTo key = some nodeId ∧ before.Serves nodeId ∧ ¬after.Serves nodeId) ∨
      ∃ nodeId, after.routedTo key = some nodeId ∧ after.Serves nodeId ∧ ¬before.Serves nodeId := by
  cases old : before.routedTo key with
  | none =>
      cases new : after.routedTo key with
      | none => exact absurd (new.trans old.symm) changed
      | some nodeId =>
          have serves := (aligned'.routedTo_some new).1
          exact .inr ⟨nodeId, rfl, serves, aligned.unrouted (Option.map_eq_none_iff.mp old) nodeId⟩
  | some nodeId =>
      obtain ⟨serves, v, rfl, nearest⟩ := aligned.routedTo_some old
      cases new : after.routedTo key with
      | none => exact .inl ⟨_, rfl, serves, aligned'.unrouted (Option.map_eq_none_iff.mp new) _⟩
      | some other =>
          obtain ⟨serves', w, rfl, nearest'⟩ := aligned'.routedTo_some new
          have differ : v ≠ w := by
            intro same
            rw [old, new, same] at changed
            exact changed rfl
          have gone := nearest.moved nearest'
            (fun same => apart distinct (aligned.known _ serves.registered) (aligned'.known _ serves'.registered)
              nearest.member.2 nearest'.member.2 (clockwise_inj same)) differ
          rcases gone with left | came
          · exact .inl ⟨_, rfl, serves, fun stays => left ⟨stays, nearest.member.2⟩⟩
          · exact .inr ⟨_, rfl, serves', fun was => came ⟨was, nearest'.member.2⟩⟩

end Aligned

/-- The only healthy node gets every request. -/
theorem Aligned.routedTo_only (aligned : Aligned ids registry) (serves : registry.Serves nodeId)
    (only : ∀ other, registry.Serves other → other = nodeId) (key : String) : registry.routedTo key = some nodeId := by
  cases found : registry.routedTo key with
  | none => exact absurd serves (aligned.unrouted (Option.map_eq_none_iff.mp found) nodeId)
  | some other => rw [only other (aligned.routedTo_some found).1]

theorem not_serves_new : ¬new.Serves nodeId := fun serves => (nomatch serves.registered)

theorem serves_register : (registry.register info).Serves nodeId ↔
    if nodeId = info.id then info.healthy = true else registry.Serves nodeId := by
  rw [Serves, Serves, NodeRegistry.register]
  by_cases same : nodeId = info.id
  · rw [if_pos same, same, AList.lookup_insert]
    simp
  · rw [if_neg same, AList.lookup_insert_ne same]

theorem serves_deregister (other : String) : (registry.deregister other).Serves nodeId ↔
    nodeId ≠ other ∧ registry.Serves nodeId := by
  rw [Serves, Serves, NodeRegistry.deregister]
  by_cases same : nodeId = other
  · rw [same, AList.lookup_erase]
    simp
  · rw [AList.lookup_erase_ne same]
    simp [same]

theorem serves_markUnhealthy (other : String) (now : UInt64) : (registry.markHealthy other false now).Serves nodeId ↔
    nodeId ≠ other ∧ registry.Serves nodeId := by
  rw [Serves, Serves, NodeRegistry.markHealthy]
  cases found : registry.nodes.lookup other with
  | none =>
      constructor
      · intro ⟨info, here, healthy⟩
        refine ⟨?_, info, here, healthy⟩
        intro same
        rw [same, found] at here
        exact (nomatch here)
      · exact fun both => both.2
  | some node =>
      by_cases same : nodeId = other
      · rw [same, AList.lookup_insert]
        simp
      · rw [AList.lookup_insert_ne same]
        simp [same]

/-- The routing of a registry: 150 virtual nodes a node, the first healthy node for every key, and keys that move only
to the node that comes or from the node that leaves. -/
structure Routes (ids : List String) (registry : NodeRegistry) : Prop where
  replicas : ∀ nodeId, registry.ring.vnodes.countP (fun v => v.nodeId = nodeId) =
    if nodeId ∈ registry.nodes then 150 else 0
  first : ∀ key info, registry.routeRequest key = some info →
    registry.nodes.lookup info.id = some info ∧ info.healthy = true ∧ registry.FirstHealthy key info.id
  served : ∀ key, (registry.routeRequest key).isSome = true ↔ ∃ nodeId, registry.Serves nodeId
  registered : ∀ info key, info.id ∈ ids → (registry.register info).routedTo key ≠ registry.routedTo key →
    if info.healthy then (registry.register info).routedTo key = some info.id
    else registry.routedTo key = some info.id
  deregistered : ∀ nodeId key, (registry.deregister nodeId).routedTo key ≠ registry.routedTo key →
    registry.routedTo key = some nodeId
  unhealthy : ∀ nodeId now key, (registry.markHealthy nodeId false now).routedTo key ≠ registry.routedTo key →
    registry.routedTo key = some nodeId

theorem Aligned.routes (distinct : NoCollisions ids) (aligned : Aligned ids registry) : Routes ids registry where
  replicas nodeId := by
    rw [aligned.ring.count registry.nodes.keys_nodup, aligned.replicas]
    exact if_congr AList.mem_keys.symm rfl rfl
  first key info := aligned.routed
  served key := by
    constructor
    · intro some
      obtain ⟨info, found⟩ := Option.isSome_iff_exists.mp some
      obtain ⟨found, healthy, _⟩ := aligned.routed found
      exact ⟨info.id, info, found, healthy⟩
    · intro ⟨nodeId, serves⟩
      by_contra missing
      exact aligned.unrouted (Option.not_isSome_iff_eq_none.mp missing) nodeId serves
  registered info key known changed := by
    rcases moved distinct aligned (aligned.register known) changed with ⟨nodeId, old, serves, left⟩ |
      ⟨nodeId, new, serves, came⟩
    · rw [serves_register] at left
      split at left
      case isTrue same =>
        rw [if_neg left, old, same]
      case isFalse => exact absurd serves left
    · rw [serves_register] at serves
      split at serves
      case isTrue same =>
        rw [if_pos serves, new, same]
      case isFalse => exact absurd serves came
  deregistered nodeId key changed := by
    rcases moved distinct aligned (aligned.deregister nodeId) changed with ⟨other, old, serves, left⟩ |
      ⟨other, new, serves, came⟩
    · rw [serves_deregister, not_and] at left
      have same : other = nodeId := by
        by_contra differ
        exact left differ serves
      rw [old, same]
    · exact absurd ((serves_deregister nodeId).mp serves).2 came
  unhealthy nodeId now key changed := by
    rcases moved distinct aligned (aligned.markHealthy nodeId false now) changed with ⟨other, old, serves, left⟩ |
      ⟨other, new, serves, came⟩
    · rw [serves_markUnhealthy, not_and] at left
      have same : other = nodeId := by
        by_contra differ
        exact left differ serves
      rw [old, same]
    · exact absurd ((serves_markUnhealthy nodeId now).mp serves).2 came

/-- Every history gives the same routing as any other one with the same healthy nodes. -/
theorem run_routes (distinct : NoCollisions ids) (registers : Registers ids events) :
    Routes ids (run events) ∧ ∀ others, Registers ids others →
      (∀ nodeId, (run events).Serves nodeId ↔ (run others).Serves nodeId) →
      ∀ key, (run others).routedTo key = (run events).routedTo key := by
  have aligned := Aligned.run registers
  refine ⟨aligned.routes distinct, fun others registers' same key => ?_⟩
  by_contra changed
  rcases Aligned.moved distinct aligned (Aligned.run registers') changed with ⟨nodeId, _, serves, left⟩ |
    ⟨nodeId, _, serves, came⟩
  · exact left ((same nodeId).mp serves)
  · exact came ((same nodeId).mpr serves)

def pair : List Event := [.register ⟨"a", "a:1", true, 0⟩, .register ⟨"b", "b:1", true, 0⟩]

theorem pair_routes : Routes ["a", "b"] (run pair) ∧ ∀ others, Registers ["a", "b"] others →
    (∀ nodeId, (run pair).Serves nodeId ↔ (run others).Serves nodeId) →
      ∀ key, (run others).routedTo key = (run pair).routedTo key :=
  run_routes (noCollisions_of_spread 1388 (by decide +kernel)) (by simp [Registers, pair])

/-- A healthy node is registered again as unhealthy, and its keys move away from it. -/
theorem register_again_moves : NoCollisions ["a"] ∧
    let before := run [.register ⟨"a", "a:1", true, 0⟩]
    let after := before.register ⟨"a", "a:1", false, 0⟩
    before.routedTo "key" = some "a" ∧ after.routedTo "key" = none := by
  have aligned : Aligned ["a"] (run [.register ⟨"a", "a:1", true, 0⟩]) := Aligned.run (by simp [Registers])
  have only : ∀ nodeId, (run [.register ⟨"a", "a:1", true, 0⟩]).Serves nodeId ↔ nodeId = "a" := by
    intro nodeId
    change (new.register _).Serves nodeId ↔ _
    simp [serves_register, not_serves_new]
  refine ⟨noCollisions_of_spread 415 (by decide +kernel), ?_, ?_⟩
  · exact aligned.routedTo_only ((only "a").mpr rfl) (fun other serves => (only other).mp serves) "key"
  · have aligned' := @Aligned.register _ _ aligned ⟨"a", "a:1", false, 0⟩ mem_cons_self
    cases found : ((run [.register ⟨"a", "a:1", true, 0⟩]).register ⟨"a", "a:1", false, 0⟩).routedTo "key" with
    | none => rfl
    | some nodeId =>
        have serves := serves_register.mp (aligned'.routedTo_some found).1
        simp [only] at serves

end Pictor.NodeRegistry
