import Pictor.Construction.Decoding.Sampling

namespace Pictor.AllowListConstraint
open List

/-- The tokens since the last reset, accepted or not. -/
def consume (tokens : List UInt32) : Call → List UInt32
  | .advance token => tokens ++ [token]
  | .reset => []

/-- The active candidates are the ones that start with the tokens. -/
structure Follows (candidates : List (List UInt32)) (tokens : List UInt32) (constraint : AllowListConstraint) :
    Prop where
  unchanged : constraint.candidates = candidates
  active : constraint.active = candidates.map tokens.isPrefixOf
  position : constraint.position = tokens.length

/-- A candidate goes on with a token after some tokens. -/
theorem append_prefix_iff {tokens seq : List UInt32} {token : UInt32} :
    tokens ++ [token] <+: seq ↔ tokens <+: seq ∧ seq[tokens.length]? = some token := by
  constructor
  · intro ⟨rest, same⟩
    rw [← same, append_assoc]
    exact ⟨List.prefix_append _ _, by simp⟩
  · intro ⟨⟨rest, same⟩, next⟩
    rw [← same, getElem?_append_right (Nat.le_refl _), Nat.sub_self] at next
    cases rest with
    | nil => cases next
    | cons first rest =>
        rw [getElem?_cons_zero, Option.some.injEq] at next
        rw [← same, next]
        exact ⟨rest, by simp⟩

section Step

variable (tokens : List UInt32) (token : UInt32) (seq : List UInt32)

/-- The candidate stays active exactly if it starts with the tokens and the new one. -/
theorem narrow_fst : (narrow tokens.length token (seq, tokens.isPrefixOf seq)).1 = (tokens ++ [token]).isPrefixOf seq := by
  rw [Bool.eq_iff_iff, List.isPrefixOf_iff_prefix, append_prefix_iff, ← List.isPrefixOf_iff_prefix]
  cases before : tokens.isPrefixOf seq with
  | false => simp [narrow]
  | true =>
      cases next : seq[tokens.length]? with
      | none => simp [narrow, next]
      | some tok =>
          by_cases same : tok = token
          · simp [narrow, next, same]
          · simp [narrow, next, same]

/-- A token that completes a candidate keeps it active. -/
theorem narrow_snd {position : Nat} {candidate : List UInt32 × Bool}
    (completed : (narrow position token candidate).2 = true) : (narrow position token candidate).1 = true := by
  obtain ⟨seq, active⟩ := candidate
  cases active with
  | false => cases completed
  | true =>
      cases next : seq[position]? with
      | none => simp [narrow, next] at completed
      | some tok =>
          by_cases same : tok = token
          · simp [narrow, next, same]
          · simp [narrow, next, same] at completed

theorem allow_getElem? {vocabSize index : Nat} (mask : List Bool) (length : mask.length = vocabSize) :
    (allow tokens.length vocabSize mask (seq, tokens.isPrefixOf seq))[index]? = some true ↔
      mask[index]? = some true ∨ index < vocabSize ∧ ∃ token, token.toNat = index ∧ tokens ++ [token] <+: seq := by
  simp only [append_prefix_iff]
  rw [← List.isPrefixOf_iff_prefix]
  cases before : tokens.isPrefixOf seq with
  | false => simp [allow]
  | true =>
      cases next : seq[tokens.length]? with
      | none => simp [allow, next]
      | some tok =>
          by_cases within : tok.toNat < vocabSize
          · by_cases same : tok.toNat = index
            · subst same
              simp [allow, next, within, length]
            · simp [allow, next, within, same]
          · have outside (here : index < vocabSize) (same : tok.toNat = index) : False := by omega
            simp only [allow, next, if_neg within, true_and, Option.some.injEq]
            constructor
            · exact Or.inl
            · intro either
              rcases either with set | ⟨here, token, same, next⟩
              · exact set
              · rw [← next] at same
                exact absurd same (outside here)

theorem allow_length (position vocabSize : Nat) (mask : List Bool) (candidate : List UInt32 × Bool) :
    (allow position vocabSize mask candidate).length = mask.length := by
  obtain ⟨seq, active⟩ := candidate
  unfold allow
  split
  · rfl
  · split
    · rfl
    · split
      · exact length_set
      · rfl

/-- The mask collects the next tokens of the candidates one by one. -/
theorem foldl_allow {vocabSize index : Nat} (candidates : List (List UInt32)) (mask : List Bool)
    (length : mask.length = vocabSize) :
    (((candidates.map fun seq => (seq, tokens.isPrefixOf seq)).foldl (allow tokens.length vocabSize) mask)[index]? =
        some true ↔ mask[index]? = some true ∨
      index < vocabSize ∧ ∃ token, token.toNat = index ∧ ∃ seq ∈ candidates, tokens ++ [token] <+: seq) ∧
    ((candidates.map fun seq => (seq, tokens.isPrefixOf seq)).foldl (allow tokens.length vocabSize) mask).length =
      vocabSize := by
  induction candidates generalizing mask with
  | nil => simpa using length
  | cons seq candidates ih =>
      obtain ⟨member, size⟩ := ih (allow tokens.length vocabSize mask (seq, tokens.isPrefixOf seq))
        (by rw [allow_length, length])
      rw [map_cons, foldl_cons]
      refine ⟨?_, size⟩
      rw [member, allow_getElem? tokens seq mask length, or_assoc]
      simp only [exists_mem_cons_iff, ← and_or_left, ← exists_or]

end Step

variable {candidates : List (List UInt32)} {tokens : List UInt32} {constraint : AllowListConstraint}

theorem Follows.zip (follows : Follows candidates tokens constraint) :
    constraint.candidates.zip constraint.active = candidates.map fun seq => (seq, tokens.isPrefixOf seq) := by
  rw [follows.unchanged, follows.active, zip_eq_zipWith, zipWith_map_right, zipWith_self]

theorem new_follows (candidates : List (List UInt32)) : Follows candidates [] (new candidates) := by
  constructor
  · rfl
  · change List.replicate candidates.length true = candidates.map fun _ => true
    rw [map_const']
  · rfl

variable (follows : Follows candidates tokens constraint)
include follows

theorem Follows.advance (token : UInt32) : Follows candidates (tokens ++ [token]) (constraint.advance token).2 := by
  constructor
  · exact follows.unchanged
  · change ((constraint.candidates.zip constraint.active).map (narrow constraint.position token)).map Prod.fst = _
    rw [follows.zip, follows.position, map_map, map_map]
    exact map_congr_left fun seq _ => narrow_fst tokens token seq
  · change constraint.position + 1 = _
    rw [follows.position, length_append, length_singleton]

theorem Follows.reset : Follows candidates [] constraint.reset := by
  constructor
  · exact follows.unchanged
  · change constraint.active.map (fun _ => true) = _
    rw [follows.active, map_map]
    exact map_congr_left fun _ _ => rfl
  · rfl

theorem Follows.perform (call : Call) : Follows candidates (consume tokens call) (constraint.perform call) := by
  cases call with
  | advance token => exact follows.advance token
  | reset => exact follows.reset

/-- Every history keeps the active candidates exact. -/
theorem Follows.run (history : List Call) :
    Follows candidates (history.foldl consume tokens) (history.foldl AllowListConstraint.perform constraint) := by
  induction history generalizing tokens constraint with
  | nil => exact follows
  | cons call history ih => exact ih (follows.perform call)

theorem Follows.allowedTokens (vocabSize : Nat) (token : UInt32) :
    (constraint.allowedTokens vocabSize)[token.toNat]? = some true ↔
      token.toNat < vocabSize ∧ ∃ seq ∈ candidates, tokens ++ [token] <+: seq := by
  rw [AllowListConstraint.allowedTokens, follows.zip, follows.position,
    (foldl_allow tokens candidates _ length_replicate).1]
  have blank : (List.replicate vocabSize false)[token.toNat]? ≠ some true := by
    intro set
    obtain ⟨_, set⟩ := List.getElem?_eq_some_iff.mp set
    rw [getElem_replicate] at set
    cases set
  simp only [blank, false_or, UInt32.toNat_inj]
  constructor
  · intro ⟨within, other, same, goesOn⟩
    rw [same] at goesOn
    exact ⟨within, goesOn⟩
  · intro ⟨within, goesOn⟩
    exact ⟨within, token, rfl, goesOn⟩

theorem Follows.allowedTokens_length (vocabSize : Nat) : (constraint.allowedTokens vocabSize).length = vocabSize := by
  rw [AllowListConstraint.allowedTokens, follows.zip, follows.position]
  exact (@foldl_allow tokens vocabSize 0 candidates _ length_replicate).2

theorem Follows.advance_fst (token : UInt32) :
    (constraint.advance token).1 = true ↔ ∃ seq ∈ candidates, tokens ++ [token] <+: seq := by
  change (((constraint.candidates.zip constraint.active).map (narrow constraint.position token)).any Prod.snd ||
    (constraint.advance token).2.active.any id) = true ↔ _
  have remains : (constraint.advance token).2.active.any id = true ↔
      ∃ seq ∈ candidates, tokens ++ [token] <+: seq := by
    rw [(follows.advance token).active, any_map, any_eq_true]
    simp only [Function.comp_apply, id_eq, List.isPrefixOf_iff_prefix]
  rw [Bool.or_eq_true, remains, or_iff_right_iff_imp, ← remains]
  intro completed
  obtain ⟨result, member, completed⟩ := any_eq_true.mp completed
  obtain ⟨candidate, _, same⟩ := mem_map.mp member
  rw [any_eq_true]
  refine ⟨true, mem_map.mpr ⟨result, member, ?_⟩, rfl⟩
  rw [← same] at completed ⊢
  exact narrow_snd token completed

theorem Follows.isComplete : constraint.isComplete = true ↔ tokens ∈ candidates := by
  rw [AllowListConstraint.isComplete, follows.zip, follows.position, any_map, any_eq_true]
  constructor
  · intro ⟨seq, member, both⟩
    have both : tokens.isPrefixOf seq = true ∧ tokens.length = seq.length := by simpa using both
    rwa [(List.isPrefixOf_iff_prefix.mp both.1).eq_of_length both.2]
  · intro member
    exact ⟨tokens, member, by simp⟩

omit follows

/-- After every history the three views agree with the tokens since the last reset. -/
theorem allowList_exact (candidates : List (List UInt32)) (history : List Call) (vocabSize : Nat) (token : UInt32) :
    let constraint := history.foldl perform (new candidates)
    let tokens := history.foldl consume []
    (constraint.isComplete = true ↔ tokens ∈ candidates) ∧
      (constraint.allowedTokens vocabSize).length = vocabSize ∧
      ((constraint.allowedTokens vocabSize)[token.toNat]? = some true ↔
        token.toNat < vocabSize ∧ ∃ candidate ∈ candidates, tokens ++ [token] <+: candidate) ∧
      ((constraint.advance token).1 = true ↔ ∃ candidate ∈ candidates, tokens ++ [token] <+: candidate) := by
  have follows := (new_follows candidates).run history
  exact ⟨follows.isComplete, follows.allowedTokens_length vocabSize, follows.allowedTokens vocabSize token,
    follows.advance_fst token⟩

end Pictor.AllowListConstraint
