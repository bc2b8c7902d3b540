/-
Scores are elements of a linear order, and vectors whose metric is an error have no score.
-/

import Mathlib
import Pictor.Library.StableSort

namespace Pictor.VectorSearch

inductive Distance where
  | cosine
  | euclidean
  | dotProduct
  | angular
  | hamming

inductive RagError where
  | dimensionMismatch (expected got : Nat)
  | persistence (reason : String)
  | nonFinite

structure VectorEntry (Scalar Chunk : Type) where
  id : Nat
  vector : List Scalar
  chunk : Chunk

structure SearchResult (Score Chunk : Type) where
  score : Score
  chunk : Chunk
  id : Nat

structure VectorStore (Scalar Chunk : Type) where
  entries : List (VectorEntry Scalar Chunk)
  dim : Nat
  distance : Distance

structure IndexSnapshot (Scalar Chunk : Type) where
  schemaVersion : Nat
  dim : Nat
  distance : Distance
  entries : List (VectorEntry Scalar Chunk)

/-- The finite numbers, the normalised vectors, the scores under the metrics, and the sort of the scored entries. -/
structure Geometry (Scalar Score : Type) where
  isFinite : Scalar → Bool
  l2Normalize : List Scalar → List Scalar
  score : Distance → List Scalar → List Scalar → Option Score
  sorting : UnstableSort

variable {Scalar Score Chunk : Type} [LinearOrder Score] (geometry : Geometry Scalar Score)

def prepare (distance : Distance) (vector : List Scalar) : List Scalar :=
  match distance with
  | .cosine | .dotProduct | .angular => geometry.l2Normalize vector
  | .euclidean | .hamming => vector

def newWithDistance (dim : Nat) (distance : Distance) : VectorStore Scalar Chunk := ⟨[], dim, distance⟩

def insert (store : VectorStore Scalar Chunk) (vector : List Scalar) (chunk : Chunk) :
    Except RagError (Nat × VectorStore Scalar Chunk) :=
  if vector.length ≠ store.dim then .error (.dimensionMismatch store.dim vector.length)
  else if vector.any fun x => !geometry.isFinite x then .error .nonFinite
  else
    let id := store.entries.length
    .ok (id, { store with entries := store.entries ++ [⟨id, prepare geometry store.distance vector, chunk⟩] })

def clear (store : VectorStore Scalar Chunk) : VectorStore Scalar Chunk := { store with entries := [] }

def SCHEMA_VERSION : Nat := 1

def fromSnapshot (snapshot : IndexSnapshot Scalar Chunk) : Except RagError (VectorStore Scalar Chunk) :=
  if snapshot.schemaVersion ≠ SCHEMA_VERSION then
    .error (.persistence ("unsupported schema_version " ++ toString snapshot.schemaVersion ++ " (expected " ++
      toString SCHEMA_VERSION ++ ")"))
  else match snapshot.entries.find? fun entry => entry.vector.length ≠ snapshot.dim with
    | some entry => .error (.dimensionMismatch snapshot.dim entry.vector.length)
    | none => .ok ⟨snapshot.entries, snapshot.dim, snapshot.distance⟩

section Search

variable (store : VectorStore Scalar Chunk) (query : List Scalar) (topK : Nat) (minScore : Option Score)
  (filter : Option (Chunk → Bool))

/-- The score of an entry that passes the filter and the threshold. No threshold is minus infinity. -/
def hit (entry : VectorEntry Scalar Chunk) : Option Score :=
  if filter.all fun accepts => accepts entry.chunk then
    (geometry.score store.distance (prepare geometry store.distance query) entry.vector).filter fun score =>
      minScore.all (· ≤ score)
  else none

/-- `none` stands for an index out of range. -/
def scored : Option (List (SearchResult Score Chunk)) :=
  if store.entries.isEmpty ∨ topK = 0 ∨ query.length ≠ store.dim then some []
  else if query.any fun x => !geometry.isFinite x then some []
  else
    let scored := store.entries.filterMap fun entry =>
      (hit geometry store query minScore filter entry).map fun score => (score, entry.id)
    let sorted := geometry.sorting.sort (fun a b => decide (b.1 ≤ a.1)) scored
    (sorted.take topK).mapM fun best => store.entries[best.2]?.map fun entry => ⟨best.1, entry.chunk, best.2⟩

end Search

end Pictor.VectorSearch
