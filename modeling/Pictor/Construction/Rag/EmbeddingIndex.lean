/-
Similarities are elements of a linear order, and an index without a node has no vector and no neighbours.
-/

import Pictor.Construction.Cache.PrefixCache
import Pictor.Library.StableSort

namespace Pictor.EmbeddingIndex

structure NswConfig where
  maxConnections : Nat
  efSearch : Nat
  efConstruct : Nat

structure NswNode (Scalar : Type) where
  id : Nat
  vector : List Scalar
  neighbors : List Nat

structure NswIndex (Scalar : Type) where
  nodes : List (NswNode Scalar)
  entryCounter : Nat

/-- The vectors of the declared dimension and length, their similarity, and the sort of scored nodes. -/
structure Geometry (Scalar Score : Type) where
  normalize : List Scalar → List Scalar
  cosineSim : List Scalar → List Scalar → Score
  sorting : UnstableSort

variable {Scalar Score : Type} [LinearOrder Score] (geometry : Geometry Scalar Score)

def neighborsOf (nodes : List (NswNode Scalar)) (idx : Nat) : List Nat := (nodes[idx]?.map NswNode.neighbors).getD []

/-- The similarity of a vector and a node. -/
def scoreOf (nodes : List (NswNode Scalar)) (query : List Scalar) (idx : Nat) : Score :=
  geometry.cosineSim query ((nodes[idx]?.map NswNode.vector).getD [])

/-- The nodes that were seen, the ones to expand, and the best ones so far. -/
structure Traversal (Score : Type) where
  visited : List Nat
  frontier : List (Score × Nat)
  results : List (Nat × Score)

/-- The best node of the frontier is taken out of it. Ties go to the greater index. -/
def popFrontier : List (Score × Nat) → Option ((Score × Nat) × List (Score × Nat))
  | [] => none
  | first :: rest =>
      let best := rest.foldl (fun best next =>
        if best.1 < next.1 ∨ best.1 = next.1 ∧ best.2 < next.2 then next else best) first
      some (best, (first :: rest).erase best)

/-- The first one of the worst results. -/
def worstIdx (results : List (Nat × Score)) : Option Nat :=
  let scores := results.map Prod.snd
  scores.min?.bind fun worst => scores.idxOf? worst

/-- More results than allowed lose the worst one. -/
def trimResults (ef : Nat) (results : List (Nat × Score)) : List (Nat × Score) :=
  if ef < results.length then (worstIdx results).elim results (swapRemove results) else results

def visit (nodes : List (NswNode Scalar)) (query : List Scalar) (ef : Nat) (state : Traversal Score) (nbIdx : Nat) :
    Traversal Score :=
  if nbIdx ∈ state.visited then state
  else
    let nbScore := scoreOf geometry nodes query nbIdx
    ⟨state.visited ++ [nbIdx], (nbScore, nbIdx) :: state.frontier, trimResults ef (state.results ++ [(nbIdx, nbScore)])⟩

/-- The last node of the frontier is not expanded if the results are complete and all better than this node. A node
that is no result counts as minus infinity. -/
def stops (ef nodeIdx : Nat) (frontier : List (Score × Nat)) (results : List (Nat × Score)) : Bool :=
  ef ≤ results.length && frontier.isEmpty &&
    match results.find? fun result => result.1 = nodeIdx with
    | none => true
    | some (_, score) => results.all fun result => score < result.2

/-- Each round expands one node, and no node is expanded twice. -/
def searchLoop (nodes : List (NswNode Scalar)) (query : List Scalar) (ef : Nat) :
    Nat → Traversal Score → List (Nat × Score)
  | 0, state => state.results
  | fuel + 1, state =>
      match popFrontier state.frontier with
      | none => state.results
      | some ((_, nodeIdx), frontier) =>
          if stops ef nodeIdx frontier state.results then state.results
          else searchLoop nodes query ef fuel
            ((neighborsOf nodes nodeIdx).foldl (visit geometry nodes query ef) { state with frontier })

def greedySearch (nodes : List (NswNode Scalar)) (query : List Scalar) (entry ef : Nat) : List (Nat × Score) :=
  if nodes.isEmpty then []
  else
    let entryScore := scoreOf geometry nodes query entry
    searchLoop geometry nodes query ef nodes.length ⟨[entry], [(entryScore, entry)], [(entry, entryScore)]⟩

/-- The neighbours in the order of their similarity to a vector. -/
def byScore (scored : List (Nat × Score)) : List (Nat × Score) :=
  geometry.sorting.sort (fun a b => decide (b.2 ≤ a.2)) scored

def pruneNeighbors (nodes : List (NswNode Scalar)) (vector : List Scalar) (maxConn : Nat) (neighbors : List Nat) :
    List Nat :=
  ((byScore geometry (neighbors.map fun nb => (nb, scoreOf geometry nodes vector nb))).take maxConn).map Prod.fst

/-- A neighbour of a new node gains an edge back to it. -/
def addBackEdge (maxConn newIdx : Nat) (nodes : List (NswNode Scalar)) (nbIdx : Nat) : List (NswNode Scalar) :=
  nodes.modify nbIdx fun node =>
    let neighbors := node.neighbors ++ [newIdx]
    { node with neighbors :=
        if maxConn < neighbors.length then pruneNeighbors geometry nodes node.vector maxConn neighbors else neighbors }

/-- The nodes that a new node is connected to. -/
def neighborIndices (config : NswConfig) (index : NswIndex Scalar) (vector : List Scalar) : List Nat :=
  ((greedySearch geometry index.nodes vector (index.entryCounter % index.nodes.length) config.efConstruct).take
    config.maxConnections).map Prod.fst

def NswIndex.insert (config : NswConfig) (index : NswIndex Scalar) (id : Nat) (vector : List Scalar) : NswIndex Scalar :=
  let vector := geometry.normalize vector
  let newIdx := index.nodes.length
  if index.nodes.isEmpty then ⟨[⟨id, vector, []⟩], 0⟩
  else
    let neighbors := neighborIndices geometry config index vector
    ⟨neighbors.foldl (addBackEdge geometry config.maxConnections newIdx) (index.nodes ++ [⟨id, vector, neighbors⟩]),
      index.entryCounter + 1⟩

/-- The ids and scores of the best nodes. -/
def NswIndex.search (config : NswConfig) (index : NswIndex Scalar) (query : List Scalar) (topK : Nat) :
    List (Nat × Score) :=
  if index.nodes.isEmpty ∨ topK = 0 then []
  else
    ((byScore geometry (greedySearch geometry index.nodes (geometry.normalize query) 0 config.efSearch)).take topK).map
      fun result => (((index.nodes[result.1]?).map NswNode.id).getD 0, result.2)

structure Index (Scalar Meta : Type) where
  graph : NswIndex Scalar
  metadata : List (Nat × Meta)
  nextId : Nat

variable {Meta : Type}

def Index.new : Index Scalar Meta := ⟨⟨[], 0⟩, [], 0⟩

def Index.insert (config : NswConfig) (index : Index Scalar Meta) (entry : List Scalar × Meta) : Index Scalar Meta :=
  ⟨index.graph.insert geometry config index.nextId entry.1, index.metadata ++ [(index.nextId, entry.2)],
    index.nextId + 1⟩

/-- The best entries: their ids, scores and metadata. An id without metadata is left out. -/
def Index.search (config : NswConfig) (index : Index Scalar Meta) (query : List Scalar) (topK : Nat) :
    List (Nat × Score × Meta) :=
  (index.graph.search geometry config query topK).filterMap fun result =>
    (index.metadata.find? fun entry => entry.1 = result.1).map fun entry => (result.1, result.2, entry.2)

end Pictor.EmbeddingIndex
