import Pictor.Construction.Tokenizer.Unigram

namespace Pictor.UnigramVocab
open BestPath List

variable {vocab : UnigramVocab} {text : List UInt8} {i : Nat} {here : ℚ}

/-- A token of the vocabulary stands between two boundaries of characters. -/
structure TokenStep (vocab : UnigramVocab) (text : List UInt8) (pos : Nat) (edge : Edge UInt32 ℚ) : Prop where
  positive : 0 < edge.length
  inside : pos + edge.length ≤ text.length
  start : isCharBoundary text pos = true
  finish : isCharBoundary text (pos + edge.length) = true
  known : vocab.tokenToId.lookup ((text.drop pos).take edge.length) = some edge.label
  weight : edge.weight = vocab.scoreOf edge.label

/-- A step is a token or the unknown token for one byte. -/
def Step (vocab : UnigramVocab) (text : List UInt8) (pos : Nat) (edge : Edge UInt32 ℚ) : Prop :=
  TokenStep vocab text pos edge ∨ pos < text.length ∧ edge = vocab.unkEdge

/-- In front of a character, the unknown token is a fallback: no token starts here, or no token ends behind the byte. -/
def FallbackStep (vocab : UnigramVocab) (text : List UInt8) (pos : Nat) (edge : Edge UInt32 ℚ) : Prop :=
  TokenStep vocab text pos edge ∨ (pos < text.length ∧ edge = vocab.unkEdge ∧ (isCharBoundary text pos = true →
    (∀ token, ¬ TokenStep vocab text pos token) ∨
      ∀ before token, TokenStep vocab text before token → before + token.length ≠ pos + 1))

theorem tokenEdge?_some {len : Nat} (found : vocab.tokenEdge? text i len = some edge) :
    edge.length = len ∧ isCharBoundary text (i + edge.length) = true ∧
      vocab.tokenToId.lookup ((text.drop i).take edge.length) = some edge.label ∧
      edge.weight = vocab.scoreOf edge.label := by
  rw [tokenEdge?] at found
  split at found
  · rename_i boundary
    obtain ⟨id, known, rfl⟩ := Option.map_eq_some_iff.mp found
    exact ⟨rfl, boundary, known, rfl⟩
  · cases found

theorem TokenStep.edge {edge : Edge UInt32 ℚ} (token : TokenStep vocab text i edge) :
    vocab.tokenEdge? text i edge.length = some edge := by
  rw [tokenEdge?, if_pos token.finish, token.known, Option.map_some, ← token.weight]

/-- The inner loop offers the tokens of its lengths. -/
theorem tryTokens {lens : List Nat} {state : Bool × Table UInt32 ℚ} {offered : Nat → Edge UInt32 ℚ → Prop}
    (best : Best text.length offered state.2) (earlier : ∀ before edge, offered before edge → before ≤ i)
    (known : state.2.scoreAt i = some here) (fitting : ∀ len ∈ lens, 0 < len ∧ i + len ≤ text.length) :
    ∃ offered', Best text.length offered' (lens.foldl (vocab.tryToken text i here) state).2 ∧
      (∀ pos edge, offered' pos edge ↔
        offered pos edge ∨ pos = i ∧ edge.length ∈ lens ∧ vocab.tokenEdge? text i edge.length = some edge) ∧
      (lens.foldl (vocab.tryToken text i here) state).2.scoreAt i = some here ∧
      (∀ other, state.2.scoreAt other ≠ none → (lens.foldl (vocab.tryToken text i here) state).2.scoreAt other ≠ none) ∧
      ((lens.foldl (vocab.tryToken text i here) state).1 = true →
        state.1 = true ∨ ∃ len ∈ lens, vocab.tokenEdge? text i len ≠ none) := by
  induction lens generalizing state offered with
  | nil =>
      refine ⟨offered, best, fun pos edge => ?_, known, fun _ same => same, Or.inl⟩
      rw [or_iff_left]
      rintro ⟨_, none, _⟩
      cases none
  | cons len lens ih =>
      obtain ⟨⟨positive, inside⟩, later⟩ := forall_mem_cons.mp fitting
      rw [foldl_cons]
      cases found : vocab.tokenEdge? text i len with
      | none =>
          have same : vocab.tryToken text i here state len = state := by
            rw [tryToken, found]
          rw [same]
          obtain ⟨offered', best', exact', known', kept, flagged⟩ := ih best earlier known later
          refine ⟨offered', best', fun pos edge => ?_, known', kept, fun flag => ?_⟩
          · rw [exact', mem_cons]
            refine or_congr_right (and_congr_right fun _ => ?_)
            constructor
            · rintro ⟨member, token⟩
              exact ⟨Or.inr member, token⟩
            · rintro ⟨rfl | member, token⟩
              · rw [found] at token
                cases token
              · exact ⟨member, token⟩
          · rcases flagged flag with old | ⟨other, member, some⟩
            · exact Or.inl old
            · exact Or.inr ⟨other, mem_cons_of_mem _ member, some⟩
      | some edge =>
          have length := (tokenEdge?_some found).1
          subst length
          have step : vocab.tryToken text i here state edge.length =
              (state.1 || state.2.improves (i + edge.length) (here + edge.weight), state.2.offer i here edge) := by
            rw [tryToken, found]
          rw [step]
          have offer := best.offer known positive inside earlier
          have known₁ : (state.2.offer i here edge).scoreAt i = some here := by
            rw [Table.scoreAt_offer best.sized inside (by omega), known]
          obtain ⟨offered', best', exact', known', kept, flagged⟩ := @ih
            (state.1 || state.2.improves (i + edge.length) (here + edge.weight), state.2.offer i here edge) _ offer
            (fun before edge' => by rintro (old | ⟨rfl, _⟩); exacts [earlier _ _ old, Nat.le_refl _]) known₁ later
          refine ⟨offered', best', fun pos edge' => ?_, known', fun other some => ?_, fun flag => ?_⟩
          · rw [exact', mem_cons, or_assoc]
            refine or_congr_right ?_
            constructor
            · rintro (⟨rfl, rfl⟩ | ⟨rfl, member, token⟩)
              · exact ⟨rfl, Or.inl rfl, found⟩
              · exact ⟨rfl, Or.inr member, token⟩
            · rintro ⟨rfl, same | member, token⟩
              · rw [same, found] at token
                cases token
                exact Or.inl ⟨rfl, rfl⟩
              · exact Or.inr ⟨rfl, member, token⟩
          · exact kept other ((Table.offer_known best.sized inside).2.2 other some)
          · refine Or.inr ⟨edge.length, mem_cons_self, ?_⟩
            rw [found]
            exact Option.some_ne_none _

/-- The forward pass has left the positions in front of a bound. -/
structure Passed (vocab : UnigramVocab) (text : List UInt8) (bound : Nat) (offered : Nat → Edge UInt32 ℚ → Prop)
    (table : Table UInt32 ℚ) : Prop where
  best : Best text.length offered table
  steps : ∀ pos edge, offered pos edge → pos < bound ∧ Step vocab text pos edge
  fallback : ∀ pos edge, pos < bound → FallbackStep vocab text pos edge → offered pos edge
  reached : ∀ pos, pos ≤ bound → table.scoreAt pos ≠ none

variable {table : Table UInt32 ℚ} {offered : Nat → Edge UInt32 ℚ → Prop} {edge : Edge UInt32 ℚ}
  {entries : List (List UInt8 × ℚ)}

/-- The unknown token is offered behind the edges that leave the position. -/
theorem Passed.offerUnk {offered' : Nat → Edge UInt32 ℚ → Prop} {table' : Table UInt32 ℚ}
    (passed : Passed vocab text i offered table) (inside : i < text.length) (best : Best text.length offered' table')
    (known : table'.scoreAt i = some here)
    (exact' : ∀ pos edge, offered' pos edge → offered pos edge ∨ pos = i ∧ TokenStep vocab text i edge)
    (grown : ∀ pos edge, offered pos edge → offered' pos edge)
    (tokens : ∀ edge, TokenStep vocab text i edge → offered' i edge)
    (kept : ∀ other, table.scoreAt other ≠ none → table'.scoreAt other ≠ none) :
    ∃ offered'', Passed vocab text (i + 1) offered'' (table'.offer i here vocab.unkEdge) := by
  have earlier (before : Nat) (edge : Edge UInt32 ℚ) (old : offered' before edge) : before ≤ i := by
    rcases exact' before edge old with first | ⟨same, _⟩
    · exact Nat.le_of_lt (passed.steps before edge first).1
    · exact Nat.le_of_eq same
  have positive : 0 < vocab.unkEdge.length := Nat.zero_lt_one
  have fits : i + vocab.unkEdge.length ≤ text.length := inside
  have offer := best.offer known positive fits earlier
  refine ⟨_, offer, ?_, ?_, ?_⟩
  · rintro pos edge (old | ⟨rfl, rfl⟩)
    · rcases exact' pos edge old with first | ⟨rfl, token⟩
      · exact ⟨Nat.lt_succ_of_lt (passed.steps pos edge first).1, (passed.steps pos edge first).2⟩
      · exact ⟨Nat.lt_succ_self _, Or.inl token⟩
    · exact ⟨Nat.lt_succ_self _, Or.inr ⟨inside, rfl⟩⟩
  · intro pos edge before step
    rcases Nat.lt_succ_iff_lt_or_eq.mp before with earlier | rfl
    · exact Or.inl (grown pos edge (passed.fallback pos edge earlier step))
    · rcases step with token | ⟨_, rfl, _⟩
      · exact Or.inl (tokens edge token)
      · exact Or.inr ⟨rfl, rfl⟩
  · intro pos before
    have after := @Table.offer_known _ _ _ _ _ _ best.sized i here vocab.unkEdge fits
    rcases Nat.le_succ_iff.mp before with earlier | rfl
    · exact after.2.2 pos (kept pos (passed.reached pos earlier))
    · exact after.2.1

/-- A position of the forward pass offers its tokens and, as a fallback, the unknown token. -/
theorem Passed.advance (passed : Passed vocab text i offered table) (inside : i < text.length)
    (bounded : ∀ token id, vocab.tokenToId.lookup token = some id → token.length ≤ vocab.maxTokenByteLen) :
    ∃ offered', Passed vocab text (i + 1) offered' (vocab.advance text table i) := by
  obtain ⟨here, known⟩ := Option.ne_none_iff_exists'.mp (passed.reached i (Nat.le_refl _))
  rw [UnigramVocab.advance, known]
  dsimp only
  by_cases boundary : isCharBoundary text i = true
  · rw [if_pos boundary]
    have fitting : ∀ len ∈ List.range' 1 (min vocab.maxTokenByteLen (text.length - i)),
        0 < len ∧ i + len ≤ text.length := by
      intro len member
      rw [mem_range'_1] at member
      omega
    obtain ⟨offered', best, exact', known', kept, flagged⟩ := @tryTokens vocab text i here _ (false, table) offered
      passed.best (fun before edge old => Nat.le_of_lt (passed.steps before edge old).1) known fitting
    generalize (List.range' 1 (min vocab.maxTokenByteLen (text.length - i))).foldl (vocab.tryToken text i here)
      (false, table) = result at best known' kept flagged ⊢
    have token {edge : Edge UInt32 ℚ} (member : edge.length ∈ List.range' 1 (min vocab.maxTokenByteLen (text.length - i)))
        (found : vocab.tokenEdge? text i edge.length = some edge) : TokenStep vocab text i edge := by
      obtain ⟨_, finish, id, weight⟩ := tokenEdge?_some found
      obtain ⟨positive, fits⟩ := fitting _ member
      exact ⟨positive, fits, boundary, finish, id, weight⟩
    have tokens (edge : Edge UInt32 ℚ) (step : TokenStep vocab text i edge) : offered' i edge := by
      refine (exact' i edge).mpr (Or.inr ⟨rfl, ?_, step.edge⟩)
      have short := bounded _ _ step.known
      have fits := step.inside
      have positive := step.positive
      rw [length_take, length_drop] at short
      rw [mem_range'_1]
      omega
    have steps (pos : Nat) (edge : Edge UInt32 ℚ) (old : offered' pos edge) :
        offered pos edge ∨ pos = i ∧ TokenStep vocab text i edge := by
      rcases (exact' pos edge).mp old with first | ⟨same, member, found⟩
      · exact Or.inl first
      · exact Or.inr ⟨same, token member found⟩
    have grown (pos : Nat) (edge : Edge UInt32 ℚ) (old : offered pos edge) := (exact' pos edge).mpr (Or.inl old)
    split
    · exact passed.offerUnk inside best known' steps grown tokens kept
    · rename_i pruned
      rw [Bool.not_eq_true, Bool.or_eq_false_iff, Bool.not_eq_false', Option.isNone_eq_false_iff,
        Option.isSome_iff_exists] at pruned
      obtain ⟨found, total, filled⟩ := pruned
      have before (pos : Nat) (edge : Edge UInt32 ℚ) (old : offered' pos edge) : pos ≤ i := by
        rcases steps pos edge old with first | ⟨rfl, _⟩
        · exact Nat.le_of_lt (passed.steps pos edge first).1
        · exact Nat.le_refl _
      refine ⟨offered', best, ?_, ?_, ?_⟩
      · intro pos edge old
        rcases steps pos edge old with first | ⟨rfl, step⟩
        · exact ⟨Nat.lt_succ_of_lt (passed.steps pos edge first).1, (passed.steps pos edge first).2⟩
        · exact ⟨Nat.lt_succ_self _, Or.inl step⟩
      · intro pos edge early step
        rcases Nat.lt_succ_iff_lt_or_eq.mp early with earlier | rfl
        · exact grown pos edge (passed.fallback pos edge earlier step)
        · rcases step with step | ⟨_, rfl, alone⟩
          · exact tokens edge step
          · -- A token starts here, and a token ends behind the byte, because no unknown token has led there.
            rcases alone boundary with none | none
            · rcases flagged found with wrong | ⟨len, member, some⟩
              · cases wrong
              · obtain ⟨edge, found⟩ := Option.ne_none_iff_exists'.mp some
                obtain rfl := (tokenEdge?_some found).1
                exact absurd (token member found) (none edge)
            · obtain ⟨first, edge, _, parts, old, _⟩ := best.traced _ total filled (Nat.succ_ne_zero _)
              rcases steps first edge old with earlier | ⟨rfl, step⟩
              · obtain ⟨less, step | ⟨_, rfl⟩⟩ := passed.steps first edge earlier
                · exact absurd parts.symm (none first edge step)
                · have length : vocab.unkEdge.length = 1 := rfl
                  omega
              · exact absurd parts.symm (none _ edge step)
      · intro pos early
        rcases Nat.le_succ_iff.mp early with earlier | rfl
        · exact kept pos (passed.reached pos earlier)
        · rw [filled]
          exact Option.some_ne_none _
  · rw [if_neg boundary]
    exact passed.offerUnk inside passed.best known (fun _ _ => Or.inl) (fun _ _ => id)
      (fun edge step => absurd step.start boundary) fun _ => id

theorem Passed.start : Passed vocab text 0 (fun _ _ => False) (Table.start text.length) where
  best := Best.start text.length
  steps := nofun
  fallback pos edge early := absurd early (Nat.not_lt_zero _)
  reached pos early := by
    obtain rfl := Nat.le_zero.mp early
    rw [(Best.start text.length).origin]
    exact Option.some_ne_none _

/-- The whole forward pass. The induction is on the number of positions. -/
theorem passed_all (bounded : ∀ token id, vocab.tokenToId.lookup token = some id → token.length ≤ vocab.maxTokenByteLen)
    {bound : Nat} (inside : bound ≤ text.length) :
    ∃ offered, Passed vocab text bound offered ((List.range bound).foldl (vocab.advance text) (Table.start text.length)) := by
  induction bound with
  | zero => exact ⟨_, Passed.start⟩
  | succ bound ih =>
      obtain ⟨offered, passed⟩ := ih (Nat.le_of_succ_le inside)
      rw [List.range_succ, foldl_append, foldl_cons, foldl_nil]
      exact passed.advance inside bounded

/-- The tokens of a vocabulary are not longer than its bound. -/
theorem insertEntries_bounded {idx : Nat} {vocab' : UnigramVocab}
    (inserted : insertEntries idx entries vocab = .ok vocab')
    (bounded : ∀ token id, vocab.tokenToId.lookup token = some id → token.length ≤ vocab.maxTokenByteLen) :
    ∀ token id, vocab'.tokenToId.lookup token = some id → token.length ≤ vocab'.maxTokenByteLen := by
  induction entries generalizing idx vocab with
  | nil =>
      cases inserted
      exact bounded
  | cons entry entries ih =>
      rw [insertEntries] at inserted
      split at inserted
      · cases inserted
      · refine ih inserted fun token id found => ?_
        dsimp only at found ⊢
        by_cases same : token = entry.1
        · subst same
          split
          · exact Nat.le_refl _
          · rename_i short
            exact Nat.le_of_not_lt short
        · rw [AList.lookup_insert_ne same] at found
          have old := bounded token id found
          split
          · rename_i longer
            exact Nat.le_trans old (Nat.le_of_lt longer)
          · exact old

theorem new_bounded {unkId : UInt32} (built : new entries unkId = .ok vocab) :
    ∀ token id, vocab.tokenToId.lookup token = some id → token.length ≤ vocab.maxTokenByteLen := by
  rw [new] at built
  split at built
  · cases built
  · split at built
    · cases built
    · refine insertEntries_bounded built fun token id found => ?_
      rw [AList.lookup_empty] at found
      cases found

theorem FallbackStep.before_end (step : FallbackStep vocab text i edge) : i < text.length := by
  rcases step with token | ⟨inside, _⟩
  · have positive := token.positive
    have fits := token.inside
    omega
  · exact inside

/-- The entries of the examples: the unknown token, abc, cd, de and efg. -/
def letterEntries : List (List UInt8 × ℚ) :=
  [([60, 117, 110, 107, 62], 0), ([97, 98, 99], -1), ([99, 100], -1), ([100, 101], -1), ([101, 102, 103], -1)]

def letterVocab : UnigramVocab where
  entries := letterEntries
  tokenToId := ((((∅ : AList fun _ : List UInt8 => UInt32).insert [60, 117, 110, 107, 62] 0).insert [97, 98, 99] 1).insert
    [99, 100] 2).insert [100, 101] 3 |>.insert [101, 102, 103] 4
  tokenScores := [0, -1, -1, -1, -1]
  unkId := 0
  maxTokenByteLen := 5

theorem letterVocab_new : new letterEntries 0 = .ok letterVocab := rfl

/-- The text abcdefg. -/
def letters : List UInt8 := [97, 98, 99, 100, 101, 102, 103]

theorem letters_encode : letterVocab.encode letters = [0, 0, 2, 4] := by decide +kernel

end Pictor.UnigramVocab
