import Pictor.Construction.Tokenizer.Bpe
import Pictor.Library.Transitions

namespace Pictor.Vocabulary
open Transitions

/-- The maps are inverse, and a special token has the id that is recorded for it. -/
structure Inverse (vocab : Vocabulary) : Prop where
  maps : ∀ token id, vocab.getId token = some id ↔ vocab.getToken id = some token
  special : ∀ token, vocab.isSpecialToken token = true →
    ∃ id, vocab.specialTokens.lookup token = some id ∧ vocab.getId token = some id

def Call.token : Call → List Char
  | .insert token _ => token
  | .addSpecial token _ => token

def Call.id : Call → UInt32
  | .insert _ id => id
  | .addSpecial _ id => id

/-- The token of a call has no other id, and its id has no other token. -/
def Fits (vocab : Vocabulary) (call : Call) : Prop :=
  (vocab.getId call.token = none ∨ vocab.getId call.token = some call.id) ∧
    (vocab.getToken call.id = none ∨ vocab.getToken call.id = some call.token)

instance (vocab : Vocabulary) (call : Call) : Decidable (vocab.Fits call) :=
  inferInstanceAs (Decidable (_ ∧ _))

section Perform

variable (vocab : Vocabulary) (call : Call)

theorem getId_perform (other : List Char) :
    (vocab.perform call).getId other = if other = call.token then some call.id else vocab.getId other := by
  cases call with
  | insert token id => exact vocab.getId_insert token id other
  | addSpecial token id => exact getId_insert { vocab with specialTokens := vocab.specialTokens.insert token id } token id other

theorem getToken_perform (other : UInt32) :
    (vocab.perform call).getToken other = if other = call.id then some call.token else vocab.getToken other := by
  cases call with
  | insert token id => exact vocab.getToken_insert token id other
  | addSpecial token id => exact getToken_insert { vocab with specialTokens := vocab.specialTokens.insert token id } token id other

/-- A call records its own token only, and with its own id. -/
theorem lookup_perform (other : List Char) : (vocab.perform call).specialTokens.lookup other =
      vocab.specialTokens.lookup other ∨
    other = call.token ∧ (vocab.perform call).specialTokens.lookup other = some call.id := by
  cases call with
  | insert token id => exact Or.inl rfl
  | addSpecial token id =>
      change (vocab.specialTokens.insert token id).lookup other = _ ∨ other = token ∧
        (vocab.specialTokens.insert token id).lookup other = some id
      by_cases same : other = token
      · rw [same]
        exact Or.inr ⟨rfl, AList.lookup_insert _⟩
      · exact Or.inl (AList.lookup_insert_ne same)

end Perform

variable {vocab : Vocabulary} {call : Call}

theorem Inverse.perform (inverse : vocab.Inverse) (fits : vocab.Fits call) : (vocab.perform call).Inverse := by
  constructor
  · intro token id
    rw [getId_perform, getToken_perform]
    by_cases sameToken : token = call.token
    · by_cases sameId : id = call.id
      · rw [if_pos sameToken, if_pos sameId, sameToken, sameId]
        exact iff_of_true rfl rfl
      · rw [if_pos sameToken, if_neg sameId, ← inverse.maps, sameToken]
        refine iff_of_false (fun same => sameId (Option.some.inj same).symm) fun found => ?_
        rcases fits.1 with fresh | known
        · rw [fresh] at found
          cases found
        · rw [known] at found
          exact sameId (Option.some.inj found).symm
    · by_cases sameId : id = call.id
      · rw [if_neg sameToken, if_pos sameId, inverse.maps, sameId]
        refine iff_of_false (fun found => ?_) fun same => sameToken (Option.some.inj same).symm
        rcases fits.2 with fresh | known
        · rw [fresh] at found
          cases found
        · rw [known] at found
          exact sameToken (Option.some.inj found).symm
      · rw [if_neg sameToken, if_neg sameId]
        exact inverse.maps token id
  · intro token reported
    rw [getId_perform]
    rcases vocab.lookup_perform call token with kept | ⟨same, recorded⟩
    · rw [isSpecialToken, kept] at reported
      obtain ⟨id, recorded, found⟩ := inverse.special token reported
      refine ⟨id, kept.trans recorded, ?_⟩
      by_cases same : token = call.token
      · rw [if_pos same]
        rw [same] at found
        rcases fits.1 with fresh | known
        · rw [fresh] at found
          cases found
        · exact known.symm.trans found
      · rwa [if_neg same]
    · exact ⟨call.id, recorded, if_pos same⟩

/-- A call that does not fit leaves an entry of the other map behind. -/
theorem Inverse.fits_of_perform (inverse : vocab.Inverse) (kept : (vocab.perform call).Inverse) :
    vocab.Fits call := by
  constructor
  · cases found : vocab.getId call.token with
    | none => exact Or.inl rfl
    | some id =>
        by_cases same : id = call.id
        · exact Or.inr (congrArg some same)
        · have stale : (vocab.perform call).getToken id = some call.token := by
            rw [getToken_perform, if_neg same]
            exact (inverse.maps _ _).mp found
          have moved := (kept.maps _ _).mpr stale
          rw [getId_perform, if_pos rfl] at moved
          exact absurd (Option.some.inj moved).symm same
  · cases found : vocab.getToken call.id with
    | none => exact Or.inl rfl
    | some token =>
        by_cases same : token = call.token
        · exact Or.inr (congrArg some same)
        · have stale : (vocab.perform call).getId token = some call.id := by
            rw [getId_perform, if_neg same]
            exact (inverse.maps _ _).mpr found
          have moved := (kept.maps _ _).mp stale
          rw [getToken_perform, if_pos rfl] at moved
          exact absurd (Option.some.inj moved).symm same

theorem new_inverse : new.Inverse := by
  constructor
  · intro token id
    exact iff_of_false nofun nofun
  · intro token reported
    cases reported

/-- The maps are inverse in every state of a history if and only if each call of it fits. -/
theorem always_inverse_iff (calls : List Call) :
    Always (total perform) Inverse new calls ↔ Meets (total perform) Fits new calls :=
  always_iff_meets (fun _ _ inverse => ⟨inverse.fits_of_perform, inverse.perform⟩) new_inverse

/-- A token that is inserted again is still the token of its old id. -/
theorem insert_twice_stale : ¬ Always (total perform) Inverse new [.insert ['a'] 1, .insert ['a'] 2] := by
  intro always
  have inverse := always [.insert ['a'] 1, .insert ['a'] 2] [] rfl _ rfl
  have stale := (inverse.maps ['a'] 1).mpr (by decide)
  exact absurd stale (by decide)

end Pictor.Vocabulary
