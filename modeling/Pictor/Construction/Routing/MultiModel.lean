import Mathlib.Data.List.AList
import Mathlib.Data.List.Rotate
import Pictor.Library.HashOrder
import Pictor.Library.Transitions

namespace Pictor.MultiModel

structure ModelId where
  value : String
  deriving DecidableEq

inductive EndpointStatus
  | ready
  | loading
  | error
  | disabled
  deriving DecidableEq

namespace EndpointStatus

def isAvailable (status : EndpointStatus) : Bool := status = .ready

def name : EndpointStatus → String
  | .ready => "ready"
  | .loading => "loading"
  | .error => "error"
  | .disabled => "disabled"

end EndpointStatus

structure ModelEndpoint where
  id : ModelId
  maxContextLength : Nat
  isDefault : Bool
  status : EndpointStatus
  deriving DecidableEq

structure ModelRegistry where
  endpoints : AList fun _ : ModelId => ModelEndpoint
  aliases : AList fun _ : String => ModelId
  defaultModel : Option ModelId

namespace ModelRegistry

def new : ModelRegistry := ⟨∅, ∅, none⟩

variable (registry : ModelRegistry)

def register (endpoint : ModelEndpoint) : ModelRegistry :=
  { registry with
    endpoints := registry.endpoints.insert endpoint.id endpoint
    defaultModel := if endpoint.isDefault then some endpoint.id else registry.defaultModel }

/-- The default and the aliases of a removed endpoint go with it. -/
def unregister (id : ModelId) : ModelRegistry × Option ModelEndpoint :=
  match registry.endpoints.lookup id with
  | none => (registry, none)
  | some removed =>
      ({ endpoints := registry.endpoints.erase id
         aliases := ⟨registry.aliases.entries.filter fun entry => entry.2 ≠ id,
          registry.aliases.nodupKeys.sublist List.filter_sublist⟩
         defaultModel := if registry.defaultModel = some id then none else registry.defaultModel },
       some removed)

def addAlias (name : String) (target : ModelId) : ModelRegistry :=
  { registry with aliases := registry.aliases.insert name target }

/-- An identifier comes before an alias of the same name. -/
def resolve (idOrAlias : String) : Option ModelEndpoint :=
  match registry.endpoints.lookup ⟨idOrAlias⟩ with
  | some endpoint => some endpoint
  | none =>
      match registry.aliases.lookup idOrAlias with
      | some target => registry.endpoints.lookup target
      | none => none

def defaultEndpoint : Option ModelEndpoint := registry.defaultModel.bind registry.endpoints.lookup

/-- The map of endpoints has no order of its own. -/
def allEndpoints (order : HashOrder ModelId) (moment : Nat) : List ModelEndpoint :=
  (order.iterate moment registry.endpoints.keys.toFinset).filterMap registry.endpoints.lookup

def availableEndpoints (order : HashOrder ModelId) (moment : Nat) : List ModelEndpoint :=
  (registry.allEndpoints order moment).filter fun endpoint => endpoint.status.isAvailable

def setStatus (id : ModelId) (status : EndpointStatus) : ModelRegistry × Bool :=
  match registry.endpoints.lookup id with
  | some endpoint => ({ registry with endpoints := registry.endpoints.insert id { endpoint with status } }, true)
  | none => (registry, false)

end ModelRegistry

inductive RoutingError
  | modelNotFound (name : String)
  | contextTooLong (model : String) (required available : Nat)
  | noModelsAvailable
  | modelNotReady (model status : String)
  deriving DecidableEq

/-- The last one of the largest elements. -/
def maxByKey {Element : Type} (key : Element → Nat) (elements : List Element) : Option Element :=
  elements.foldl (fun best element =>
    match best with
    | none => some element
    | some other => if key other ≤ key element then some element else some other) none

structure ModelRouter where
  registry : ModelRegistry

namespace ModelRouter

variable (router : ModelRouter)

def route (requestedModel : Option String) : Except RoutingError ModelEndpoint := do
  let endpoint ←
    match requestedModel with
    | some modelName =>
        match router.registry.resolve modelName with
        | some endpoint => .ok endpoint
        | none => .error (.modelNotFound modelName)
    | none =>
        match router.registry.defaultEndpoint with
        | some endpoint => .ok endpoint
        | none => .error .noModelsAvailable
  if !endpoint.status.isAvailable then
    .error (.modelNotReady endpoint.id.value endpoint.status.name)
  else
    .ok endpoint

def routeForContext (order : HashOrder ModelId) (moment : Nat) (requestedModel : Option String)
    (requiredContext : Nat) : Except RoutingError ModelEndpoint := do
  let endpoint ← router.route requestedModel
  if endpoint.maxContextLength < requiredContext then
    let tooLong := RoutingError.contextTooLong endpoint.id.value requiredContext endpoint.maxContextLength
    if requestedModel.isSome then
      .error tooLong
    else
      let fitting := (router.registry.availableEndpoints order moment).filter fun endpoint =>
        requiredContext ≤ endpoint.maxContextLength
      match maxByKey ModelEndpoint.maxContextLength fitting with
      | some fallback => .ok fallback
      | none => .error tooLong
  else
    .ok endpoint

end ModelRouter

end Pictor.MultiModel

namespace Pictor.HotReload

abbrev Generation := UInt64

structure ModelVersion where
  generation : Generation
  path : Option (List Char)
  description : List Char
  deriving DecidableEq

/-- The history keeps the most recent version last. -/
structure HotReloadCoordinator where
  currentGeneration : Generation
  versionHistory : List ModelVersion
  maxHistory : Nat
  deriving DecidableEq

namespace HotReloadCoordinator

def withMaxHistory (maxHistory : Nat) : HotReloadCoordinator := ⟨0, [], maxHistory⟩

/-- The atomic increment gives the version of a reload its generation. -/
def takeGeneration (coordinator : HotReloadCoordinator) (description : List Char) (path : Option (List Char)) :
    ModelVersion × HotReloadCoordinator :=
  (⟨coordinator.currentGeneration + 1, path, description⟩,
    { coordinator with currentGeneration := coordinator.currentGeneration + 1 })

/-- The section under the lock of the history. -/
def recordVersion (coordinator : HotReloadCoordinator) (version : ModelVersion) : HotReloadCoordinator :=
  let history :=
    if 0 < coordinator.maxHistory ∧ coordinator.maxHistory ≤ coordinator.versionHistory.length then
      coordinator.versionHistory.drop 1
    else coordinator.versionHistory
  { coordinator with versionHistory := history ++ [version] }

/-- The versions, the most recent one first. -/
def versions (coordinator : HotReloadCoordinator) : List ModelVersion := coordinator.versionHistory.reverse

def currentVersion (coordinator : HotReloadCoordinator) : Option ModelVersion := coordinator.versionHistory.getLast?

end HotReloadCoordinator

/-- The calls in flight have a generation and wait for the lock. The recorded generations are returned in
their order. -/
structure Shared where
  coordinator : HotReloadCoordinator
  inFlight : List ModelVersion
  recorded : List Generation
  deriving DecidableEq

/-- A reload takes two steps. A read takes one. -/
inductive Event where
  | take (description : List Char) (path : Option (List Char))
  | record (call : Nat)
  | read

def start (maxHistory : Nat) : Shared := ⟨.withMaxHistory maxHistory, [], []⟩

def step (shared : Shared) : Event → Option Shared
  | .take description path =>
      let (version, coordinator) := shared.coordinator.takeGeneration description path
      some { shared with coordinator := coordinator, inFlight := shared.inFlight ++ [version] }
  | .record call =>
      match shared.inFlight[call]? with
      | none => none
      | some version =>
          some ⟨shared.coordinator.recordVersion version, shared.inFlight.eraseIdx call,
            shared.recorded ++ [version.generation]⟩
  | .read => some shared

end Pictor.HotReload

namespace Pictor

def fnv1aHash (input : String) : UInt64 :=
  input.toUTF8.data.toList.foldl (fun hash byte => (hash ^^^ byte.toUInt64) * 1099511628211) 14695981039346656037

structure VNode where
  hash : UInt64
  nodeId : String
  deriving DecidableEq

structure ConsistentHashRing where
  vnodes : List VNode
  replicas : Nat

namespace ConsistentHashRing

def new (replicas : Nat) : ConsistentHashRing := ⟨[], max replicas 1⟩

def vnode (nodeId : String) (i : Nat) : VNode := ⟨fnv1aHash (nodeId ++ "#" ++ toString i), nodeId⟩

/-- The virtual nodes are sorted by their hashes. -/
def addNode (ring : ConsistentHashRing) (nodeId : String) : ConsistentHashRing :=
  { ring with vnodes :=
    (ring.vnodes ++ (List.range ring.replicas).map (vnode nodeId)).mergeSort fun a b => a.hash ≤ b.hash }

def removeNode (ring : ConsistentHashRing) (nodeId : String) : ConsistentHashRing :=
  { ring with vnodes := ring.vnodes.filter fun vnode => vnode.nodeId ≠ nodeId }

/-- The virtual nodes are sorted, so those before the position of a hash are the ones with smaller hashes. -/
def startAt (ring : ConsistentHashRing) (hash : UInt64) : Nat :=
  (ring.vnodes.takeWhile fun vnode => vnode.hash < hash).length % ring.vnodes.length

/-- The walk collects distinct nodes until it has enough of them. -/
def walk (count : Nat) : List VNode → List String → List String
  | [], result => result
  | vnode :: rest, result =>
      let collected := if vnode.nodeId ∈ result then result else result ++ [vnode.nodeId]
      if count ≤ collected.length then collected else walk count rest collected

/-- The walk goes around the ring once from the position of the key. -/
def getNodes (ring : ConsistentHashRing) (key : String) (count : Nat) : List String :=
  if ring.vnodes.isEmpty || count = 0 then []
  else walk count (ring.vnodes.rotate (ring.startAt (fnv1aHash key))) []

end ConsistentHashRing

structure NodeInfo where
  id : String
  addr : String
  healthy : Bool
  lastSeenMs : UInt64
  deriving DecidableEq

structure NodeRegistry where
  nodes : AList fun _ : String => NodeInfo
  ring : ConsistentHashRing

namespace NodeRegistry

def new : NodeRegistry := ⟨∅, .new 150⟩

def register (registry : NodeRegistry) (info : NodeInfo) : NodeRegistry :=
  let ring := if info.id ∈ registry.nodes then registry.ring.removeNode info.id else registry.ring
  ⟨registry.nodes.insert info.id info, ring.addNode info.id⟩

def deregister (registry : NodeRegistry) (nodeId : String) : NodeRegistry :=
  ⟨registry.nodes.erase nodeId, registry.ring.removeNode nodeId⟩

def markHealthy (registry : NodeRegistry) (nodeId : String) (healthy : Bool) (now : UInt64) : NodeRegistry :=
  match registry.nodes.lookup nodeId with
  | some node =>
      { registry with nodes := registry.nodes.insert nodeId { node with healthy, lastSeenMs := now } }
  | none => registry

/-- The first candidate that is registered and healthy serves the request. -/
def routeRequest (registry : NodeRegistry) (requestKey : String) : Option NodeInfo :=
  (registry.ring.getNodes requestKey (max registry.nodes.entries.length 1)).findSome? fun nodeId =>
    (registry.nodes.lookup nodeId).filter NodeInfo.healthy

end NodeRegistry

end Pictor
