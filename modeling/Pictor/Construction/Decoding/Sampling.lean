/-
Numbers are elements of an ordered field.
-/

import Mathlib.Algebra.Order.Field.Basic
import Pictor.Library.StableSort

namespace Pictor.Sampling
open List

/-- A partial selection keeps the items. Where the comparison orders them, the item at the index stands
between the items before and behind it. -/
structure PartialSelection where
  selectNth : ∀ {Item : Type}, (Item → Item → Bool) → Nat → List Item → List Item
  perm : ∀ {Item : Type} (le : Item → Item → Bool) (index : Nat) (items : List Item),
    (selectNth le index items).Perm items
  parted : ∀ {Item : Type} {le : Item → Item → Bool} {index : Nat} {items : List Item}, Ranks le items →
    index < items.length → ∃ (front : List Item) (pivot : Item) (back : List Item), selectNth le index items = front ++ pivot :: back ∧
      front.length = index ∧ (∀ a ∈ front, le a pivot = true) ∧ ∀ b ∈ back, le pivot b = true

/-- The merge sort selects too. -/
def PartialSelection.merging : PartialSelection where
  selectNth le _ items := StableSort.merging.sort le items
  perm le _ items := StableSort.merging.perm le items
  parted {Item le index items} ranks inside := by
    have sorted := StableSort.merging.sorted ranks
    have long := (StableSort.merging.perm le items).length_eq
    generalize StableSort.merging.sort le items = whole at sorted long
    obtain ⟨below, above⟩ := pairwise_append.mp (by
      rwa [← take_append_drop index whole] at sorted)
    have split : whole.drop index = whole[index] :: whole.drop (index + 1) := drop_eq_getElem_cons (long ▸ inside)
    rw [split] at above
    refine ⟨whole.take index, whole[index], whole.drop (index + 1), ?_, ?_, fun a early => ?_, fun b late => ?_⟩
    · rw [← split, take_append_drop]
    · rw [length_take, long, Nat.min_eq_left inside.le]
    · exact above.2 a early _ mem_cons_self
    · exact rel_of_pairwise_cons above.1 late

variable {F : Type} [Field F] [LinearOrder F]

structure SamplingParams (F : Type) where
  temperature : F
  topK : Nat
  topP : F

structure Sampler (F : Type) where
  params : SamplingParams F
  rngState : BitVec 64

def Sampler.new (params : SamplingParams F) (seed : BitVec 64) : Sampler F := ⟨params, seed⟩

def Sampler.setParams (sampler : Sampler F) (params : SamplingParams F) : Sampler F := { sampler with params }

/-- The next state of the generator, which is also the number it returns. -/
def nextU64 (rngState : BitVec 64) : BitVec 64 :=
  let x := rngState ^^^ rngState <<< 13
  let x := x ^^^ x >>> 7
  x ^^^ x <<< 17

/-- The index of the last one of the largest numbers. -/
def argmax (values : List F) : Nat :=
  ((values.zipIdx.foldl (fun found value =>
    match found with
    | none => some value
    | some best => if value.1 < best.1 then some best else some value) none).map Prod.snd).getD 0

/-- The largest number, from minus infinity on. -/
def maxVal (values : List F) : Option F := values.foldl (fun found value => some (found.elim value (max · value))) none

/-- The pairs of highest logits, in no order. -/
def filterTopK (selection : PartialSelection) (topK : Nat) (buf : List (Nat × F)) : List (Nat × F) :=
  if 0 < topK ∧ topK < buf.length then
    let cutoff := buf.length - topK
    (selection.selectNth (fun a b => decide (a.2 ≤ b.2)) cutoff buf).drop cutoff
  else buf

/-- The second components by their sum. -/
def normalize (buf : List (Nat × F)) : List (Nat × F) :=
  let sum := (buf.map Prod.snd).sum
  buf.map fun pair => (pair.1, pair.2 / sum)

/-- An empty buffer has no largest logit and stays empty. -/
def softmax (exp : F → F) (buf : List (Nat × F)) : List (Nat × F) :=
  match maxVal (buf.map Prod.snd) with
  | none => []
  | some maxVal => normalize (buf.map fun pair => (pair.1, exp (pair.2 - maxVal)))

/-- The first place where the cumulative probability exceeds the threshold. -/
def cutoffFrom (topP : F) : F → List (Nat × F) → Option Nat
  | _, [] => none
  | cum, pair :: rest => if topP < cum + pair.2 then some 0 else (cutoffFrom topP (cum + pair.2) rest).map (· + 1)

def filterTopP (sorting : StableSort) (topP : F) (buf : List (Nat × F)) : List (Nat × F) :=
  if topP < 1 then
    let sorted := sorting.sort (fun a b => decide (b.2 ≤ a.2)) buf
    let cutoff := (cutoffFrom topP 0 sorted).getD (sorted.length - 1)
    normalize (sorted.take (cutoff + 1))
  else buf

/-- The first pair whose cumulative probability reaches the random number. -/
def drawFrom (randVal : F) : F → List (Nat × F) → Option Nat
  | _, [] => none
  | cum, pair :: rest => if randVal ≤ cum + pair.2 then some pair.1 else drawFrom randVal (cum + pair.2) rest

/-- The fallback is the first pair. `none` stands for a panic on an empty buffer. -/
def draw (randVal : F) (buf : List (Nat × F)) : Option Nat :=
  (drawFrom randVal 0 buf).or (buf.head?.map Prod.fst)

/-- The buffer that a token is drawn from. -/
def probsBuf (selection : PartialSelection) (sorting : StableSort) (exp : F → F) (params : SamplingParams F)
    (logits : List F) : List (Nat × F) :=
  let buf := logits.zipIdx.map fun logit => (logit.2, logit.1 / params.temperature)
  filterTopP sorting params.topP (softmax exp (filterTopK selection params.topK buf))

/-- The token and the sampler after the call. `none` stands for a panic. -/
def Sampler.sample (selection : PartialSelection) (sorting : StableSort) (exp : F → F) (sampler : Sampler F)
    (logits : List F) : Option (BitVec 32) × Sampler F :=
  if logits.isEmpty then (some 0, sampler)
  else if sampler.params.temperature < 1 / 10 ^ 6 then (some (BitVec.ofNat 32 (argmax logits)), sampler)
  else
    let rngState := nextU64 sampler.rngState
    let randVal : F := (rngState.toNat : F) / (2 ^ 64 - 1 : Nat)
    ((draw randVal (probsBuf selection sorting exp sampler.params logits)).map (BitVec.ofNat 32),
      { sampler with rngState })

/-- A sampler is asked once for each request, with the parameters of the request. -/
def Sampler.run (selection : PartialSelection) (sorting : StableSort) (exp : F → F) (sampler : Sampler F)
    (requests : List (SamplingParams F × List F)) : Sampler F :=
  requests.foldl (fun sampler request => ((sampler.setParams request.1).sample selection sorting exp request.2).2)
    sampler

end Pictor.Sampling

namespace Pictor

structure AllowListConstraint where
  candidates : List (List UInt32)
  active : List Bool
  position : Nat

namespace AllowListConstraint

def new (candidates : List (List UInt32)) : AllowListConstraint :=
  ⟨candidates, List.replicate candidates.length true, 0⟩

/-- Only an active candidate that goes on at the position sets an entry of the mask. -/
def allow (position vocabSize : Nat) (mask : List Bool) : List UInt32 × Bool → List Bool
  | (_, false) => mask
  | (seq, true) =>
      match seq[position]? with
      | none => mask
      | some tok => if tok.toNat < vocabSize then mask.set tok.toNat true else mask

def allowedTokens (constraint : AllowListConstraint) (vocabSize : Nat) : List Bool :=
  (constraint.candidates.zip constraint.active).foldl (allow constraint.position vocabSize)
    (List.replicate vocabSize false)

/-- The result tells whether the candidate stays active and whether the token completes it. -/
def narrow (position : Nat) (token : UInt32) : List UInt32 × Bool → Bool × Bool
  | (_, false) => (false, false)
  | (seq, true) =>
      match seq[position]? with
      | none => (false, false)
      | some tok => if tok = token then (true, position + 1 == seq.length) else (false, false)

def advance (constraint : AllowListConstraint) (token : UInt32) : Bool × AllowListConstraint :=
  let narrowed := (constraint.candidates.zip constraint.active).map (narrow constraint.position token)
  let justCompleted := narrowed.any Prod.snd
  let active := narrowed.map Prod.fst
  (justCompleted || active.any id,
    { constraint with active := active, position := constraint.position + 1 })

def isComplete (constraint : AllowListConstraint) : Bool :=
  (constraint.candidates.zip constraint.active).any fun candidate =>
    candidate.2 && constraint.position == candidate.1.length

def reset (constraint : AllowListConstraint) : AllowListConstraint :=
  { constraint with active := constraint.active.map fun _ => true, position := 0 }

/-- The calls that change a constraint. -/
inductive Call where
  | advance (token : UInt32)
  | reset

def perform (constraint : AllowListConstraint) : Call → AllowListConstraint
  | .advance token => (constraint.advance token).2
  | .reset => constraint.reset

end AllowListConstraint

end Pictor
