import Pictor.Proof.Grammar.RegexDfa

namespace Pictor
open List

open LabelledGraph Outcome

namespace DfaBuilder

variable {nfa : Nfa} {accept i : Nat} {states : List DfaState} {sets : List (Finset Nat)}
  {set : Finset Nat} {b : UInt8} {word : List UInt8}

/-- Silent paths do not leave a state set of the automaton. -/
theorem Complete.accepts_nil (complete : Complete nfa accept states sets) (closed : nfa.Closed)
    (member : set ∈ sets) : (∃ p ∈ set, Path nfa.edge p [] accept) ↔ accept ∈ set := by
  obtain ⟨seeds, inside, rfl⟩ := complete.closures set member
  constructor
  · rintro ⟨p, known, path⟩
    obtain ⟨seed, start, path'⟩ := (Nfa.mem_epsilonClosure closed inside).mp known
    apply (Nfa.mem_epsilonClosure closed inside).mpr
    exact ⟨seed, start, path'.trans path⟩
  · intro known
    exact ⟨accept, known, .refl accept⟩

/-- A letter leads to the next state set. -/
theorem Complete.accepts_cons (complete : Complete nfa accept states sets) (closed : nfa.Closed)
    (member : set ∈ sets) : (∃ p ∈ set, Path nfa.edge p (b :: word) accept) ↔
      ∃ q ∈ move nfa set b, Path nfa.edge q word accept := by
  obtain ⟨seeds, inside, rfl⟩ := complete.closures set member
  constructor
  · rintro ⟨p, known, path⟩
    obtain ⟨p', q, before, step, after⟩ := path_cons_iff.mp path
    obtain ⟨seed, start, path'⟩ := (Nfa.mem_epsilonClosure closed inside).mp known
    have known' : p' ∈ nfa.epsilonClosure seeds :=
      (Nfa.mem_epsilonClosure closed inside).mpr ⟨seed, start, path'.trans before⟩
    have target : q ∈ targetsOf nfa (nfa.epsilonClosure seeds) b := mem_targetsOf.mpr ⟨p', known', step⟩
    exact ⟨q, (Nfa.mem_epsilonClosure closed (targetsOf_inside closed)).mpr ⟨q, target, .refl q⟩, after⟩
  · rintro ⟨r, known, after⟩
    obtain ⟨q, target, between⟩ := (Nfa.mem_epsilonClosure closed (targetsOf_inside closed)).mp known
    obtain ⟨p, start, step⟩ := mem_targetsOf.mp target
    exact ⟨p, start, .letter step (between.trans after)⟩

end DfaBuilder

namespace Grammar

/-- The identifiers are consecutive, and the rules stay. -/
theorem allocStates_eq (count i : Nat) (grammar : Grammar) :
    (allocStates count i grammar).1 = List.range' grammar.ntCount count ∧
      (allocStates count i grammar).2.rules = grammar.rules := by
  induction count generalizing i grammar with
  | zero => exact ⟨rfl, rfl⟩
  | succ count ih =>
      obtain ⟨ids, rules⟩ := ih (i + 1) (grammar.allocNt ("__regex_s" ++ toString i)).2
      rw [allocStates]
      exact ⟨congrArg (grammar.ntCount :: ·) ids, rules⟩

theorem foldl_addRule_rules (rules : List Rule) (grammar : Grammar) :
    (rules.foldl addRule grammar).rules = grammar.rules ++ rules ∧
      (rules.foldl addRule grammar).start = grammar.start := by
  induction rules generalizing grammar with
  | nil => exact ⟨(append_nil _).symm, rfl⟩
  | cons rule rules ih =>
      obtain ⟨same, start⟩ := ih (grammar.addRule rule)
      refine ⟨?_, start⟩
      rw [foldl_cons, same, addRule, append_assoc, singleton_append]

/-- The rules of each state are added in the order of the states. -/
theorem foldl_stateRules (order : HashOrder UInt8) (ids : List NonTerminalId)
    (entries : List (DfaState × Nat)) (grammar : Grammar) : (entries.foldl (fun grammar entry =>
        (stateRules order (maxDfaStates + entry.2) ids entry.2 entry.1).foldl addRule grammar)
      grammar).rules = grammar.rules ++ entries.flatMap (fun entry =>
        stateRules order (maxDfaStates + entry.2) ids entry.2 entry.1) ∧ (entries.foldl (fun grammar entry =>
        (stateRules order (maxDfaStates + entry.2) ids entry.2 entry.1).foldl addRule grammar)
      grammar).start = grammar.start := by
  induction entries generalizing grammar with
  | nil => exact ⟨(append_nil _).symm, rfl⟩
  | cons entry entries ih =>
      obtain ⟨same, start⟩ := foldl_addRule_rules
        (stateRules order (maxDfaStates + entry.2) ids entry.2 entry.1) grammar
      rw [foldl_cons, (ih _).1, (ih _).2, same, start, flatMap_cons, append_assoc]
      exact ⟨rfl, rfl⟩

variable {order : HashOrder UInt8} {states : List DfaState} {rule : Rule}

theorem getD_range' {i count : Nat} (inside : i < count) : (List.range' 0 count).getD i 0 = i := by
  rw [getD_eq_getElem?_getD, getElem?_range' inside, Option.getD_some]
  omega

/-- An accepting state has an empty rule, and a transition has a rule with its byte. -/
theorem mem_dfaToGrammar_rules
    (inside : ∀ state ∈ states, ∀ b j, state.transitions.lookup b = some j → j < states.length) :
    rule ∈ (dfaToGrammar order states 0).rules ↔ ∃ i state, states[i]? = some state ∧
      ((state.isAccept = true ∧ rule = ⟨i, []⟩) ∨
        ∃ b j, state.transitions.lookup b = some j ∧ rule = ⟨i, [.terminal [b], .nonTerminal j]⟩) := by
  obtain ⟨ids, rules⟩ := allocStates_eq states.length 0 (Grammar.new 0)
  rw [dfaToGrammar]
  dsimp only
  rw [(foldl_stateRules order _ _ _).1, rules, ids]
  simp only [Grammar.new, nil_append, mem_flatMap, mem_zipIdx_iff_getElem?, Prod.exists]
  rw [exists_comm]
  refine exists_congr fun i => exists_congr fun state => and_congr_right fun here => ?_
  have bound := (List.getElem?_eq_some_iff.mp here).1
  rw [stateRules, getD_range' bound, mem_append, mem_map]
  apply or_congr
  · by_cases accepting : state.isAccept = true
    · rw [if_pos accepting, mem_singleton]
      simp [accepting]
    · rw [if_neg accepting]
      simp [accepting]
  · apply exists_congr
    intro b
    rw [HashOrder.mem, mem_toFinset, ← AList.mem_keys, ← AList.lookup_isSome, Option.isSome_iff_exists]
    constructor
    · rintro ⟨⟨j, link⟩, rfl⟩
      refine ⟨j, link, ?_⟩
      rw [link, Option.getD_some, getD_range' (inside state (mem_of_getElem? here) b j link)]
    · rintro ⟨j, link, rfl⟩
      refine ⟨⟨j, link⟩, ?_⟩
      rw [link, Option.getD_some, getD_range' (inside state (mem_of_getElem? here) b j link)]

theorem dfaToGrammar_start (some : states ≠ []) : (dfaToGrammar order states 0).start = 0 := by
  obtain ⟨ids, _⟩ := allocStates_eq states.length 0 (Grammar.new 0)
  rw [dfaToGrammar]
  dsimp only
  rw [(foldl_stateRules order _ _ _).2, ids]
  exact getD_range' (length_pos_iff.mpr some)

variable {nfa : Nfa} {accept : Nat} {sets : List (Finset Nat)}

variable (complete : DfaBuilder.Complete nfa accept states sets)
include complete

/-- The transitions lead to states of the automaton. -/
theorem transition_inside : ∀ state ∈ states, ∀ b j, state.transitions.lookup b = some j → j < states.length := by
  intro state member b j link
  obtain ⟨k, bound, rfl⟩ := getElem_of_mem member
  have known := getElem?_eq_getElem (complete.length ▸ bound : k < sets.length)
  rcases complete.transitions k _ _ b known (getElem?_eq_getElem bound) with
    ⟨_, j', link', target⟩ | ⟨_, none⟩
  · rw [link] at link'
    cases link'
    rw [complete.length]
    exact (List.getElem?_eq_some_iff.mp target).1
  · rw [link] at none
    cases none

/-- A state derives the empty word when it accepts, and a letter with what its target derives. -/
theorem derives_state_iff {i : Nat} {state : DfaState} (found : states[i]? = some state) (word : List UInt8) :
    Derives (dfaToGrammar order states 0) [.nonTerminal i] word ↔
      (state.isAccept = true ∧ word = []) ∨ ∃ b j tail, state.transitions.lookup b = some j ∧
        word = b :: tail ∧ Derives (dfaToGrammar order states 0) [.nonTerminal j] tail := by
  have rules := fun rule => @mem_dfaToGrammar_rules order _ rule (transition_inside complete)
  rw [derives_nonTerminal]
  constructor
  · rintro ⟨rule, member, lhs, inner⟩
    obtain ⟨k, state', found', cases⟩ := (rules rule).mp member
    have same : k = i := by
      rcases cases with ⟨_, rfl⟩ | ⟨_, _, _, rfl⟩
      · exact lhs
      · exact lhs
    rw [same, found, Option.some.injEq] at found'
    subst same found'
    rcases cases with ⟨accepting, rfl⟩ | ⟨b, j, link, rfl⟩
    · cases inner
      exact Or.inl ⟨accepting, rfl⟩
    · obtain ⟨tail, rfl, rest⟩ := derives_terminal_cons.mp inner
      exact Or.inr ⟨b, j, tail, link, rfl, rest⟩
  · rintro (⟨accepting, rfl⟩ | ⟨b, j, tail, link, rfl, rest⟩)
    · exact ⟨⟨i, []⟩, (rules _).mpr ⟨i, state, found, Or.inl ⟨accepting, rfl⟩⟩, rfl, .nil⟩
    · have member := (rules ⟨i, [.terminal [b], .nonTerminal j]⟩).mpr
        ⟨i, state, found, Or.inr ⟨b, j, link, rfl⟩⟩
      exact ⟨_, member, rfl, derives_terminal_cons.mpr ⟨tail, rfl, rest⟩⟩

/-- The identifier of a state derives the words that its state set accepts. The induction is on the
word. -/
theorem derives_state (closed : nfa.Closed) (word : List UInt8) (i : Nat) (set : Finset Nat)
    (here : sets[i]? = some set) :
    Derives (dfaToGrammar order states 0) [.nonTerminal i] word ↔ ∃ p ∈ set, Path nfa.edge p word accept := by
  have bound : i < states.length := complete.length ▸ (List.getElem?_eq_some_iff.mp here).1
  obtain ⟨state, found⟩ : ∃ state, states[i]? = some state := ⟨_, getElem?_eq_getElem bound⟩
  have member : set ∈ sets := mem_of_getElem? here
  rw [derives_state_iff complete found]
  induction word generalizing i set state with
  | nil =>
      rw [complete.accepts_nil closed member, complete.accepts i set state here found]
      simp
  | cons b word ih =>
      have next : ∀ j, sets[j]? = some (DfaBuilder.move nfa set b) →
          (Derives (dfaToGrammar order states 0) [.nonTerminal j] word ↔
            ∃ p ∈ DfaBuilder.move nfa set b, Path nfa.edge p word accept) := by
        intro j target
        have bound' : j < states.length := complete.length ▸ (List.getElem?_eq_some_iff.mp target).1
        have found' := getElem?_eq_getElem bound'
        rw [derives_state_iff complete found']
        exact ih j _ target bound' _ found' (mem_of_getElem? target)
      rw [complete.accepts_cons closed member]
      rcases complete.transitions i set state b here found with ⟨_, j, link, target⟩ | ⟨empty, none⟩
      · rw [← next j target]
        constructor
        · rintro (⟨_, wrong⟩ | ⟨b', j', tail, link', same, rest⟩)
          · cases wrong
          · cases same
            rw [link] at link'
            cases link'
            exact rest
        · intro rest
          exact Or.inr ⟨b, j, word, link, rfl, rest⟩
      · rw [empty]
        constructor
        · rintro (⟨_, wrong⟩ | ⟨b', j', tail, link', same, _⟩)
          · cases wrong
          · cases same
            rw [none] at link'
            cases link'
        · rintro ⟨p, wrong, _⟩
          exact absurd wrong (Finset.notMem_empty p)

end Grammar

namespace Nfa

variable {nfa : Nfa} {id p q : Nat} {x : Option UInt8}

/-- The accepting mark changes no edge. -/
theorem edge_markAccept : (nfa.markAccept id).edge p x q ↔ nfa.edge p x q := by
  have same : ((nfa.markAccept id).stateAt p).epsilon = (nfa.stateAt p).epsilon ∧
      ((nfa.markAccept id).stateAt p).transitions = (nfa.stateAt p).transitions := by
    by_cases here : id = p
    · subst here
      by_cases inside : id < nfa.states.length
      · rw [markAccept, stateAt_modifyState_self _ inside]
        exact ⟨rfl, rfl⟩
      · have outside := Nat.le_of_not_lt inside
        rw [stateAt_outside outside, markAccept, stateAt_outside (by rwa [length_modifyState])]
        exact ⟨rfl, rfl⟩
    · rw [markAccept, stateAt_modifyState_ne _ here]
      exact ⟨rfl, rfl⟩
  cases x <;> simp only [edge, same]

end Nfa

/-- The grammar of the automaton of a well-formed tree has the language of the tree. -/
theorem dfaToGrammar_generates {order : HashOrder UInt8} {ast : RegexNode} {frag : NfaFrag} {nfa : Nfa}
    {states : List DfaState} (wellFormed : ast.WellFormed) (build : Nfa.buildNfaFrag ast Nfa.new = .ok (frag, nfa))
    (determinise : buildDfa order (nfa.markAccept frag.finish) frag.finish frag.start = .ok states)
    (word : List UInt8) : (Grammar.dfaToGrammar order states 0).Generates word ↔ word ∈ ast.language := by
  have built := Nfa.buildNfaFrag_makes wellFormed _ frag nfa build
  have size : (nfa.markAccept frag.finish).states.length = nfa.states.length := Nfa.length_modifyState _
  have edges : (nfa.markAccept frag.finish).edge = nfa.edge := by
    funext p x q
    exact propext Nfa.edge_markAccept
  have closed : (nfa.markAccept frag.finish).Closed := by
    intro p x q step
    rw [edges] at step
    rw [size]
    exact (built.closed p x q (Nat.zero_le p) step).2
  have inside : frag.start < (nfa.markAccept frag.finish).states.length := by
    rw [size]
    exact built.start.2
  obtain ⟨more, complete⟩ := DfaBuilder.buildDfa_complete closed inside determinise
  have some : states ≠ [] := by
    intro none
    have length := complete.length
    rw [none] at length
    cases length
  rw [Grammar.Generates, Grammar.dfaToGrammar_start some,
    Grammar.derives_state complete closed word 0 _ rfl, ← built.words, mem_between, edges]
  constructor
  · rintro ⟨p, member, path⟩
    obtain ⟨_, start, silent⟩ := (Nfa.mem_epsilonClosure closed (by simpa using inside)).mp member
    rw [edges, Finset.mem_singleton.mp start] at silent
    exact silent.trans path
  · intro path
    refine ⟨frag.start, ?_, path⟩
    apply (Nfa.mem_epsilonClosure closed (by simpa using inside)).mpr
    exact ⟨frag.start, Finset.mem_singleton_self _, .refl _⟩

/-- The compilation ends, and its grammar has the language of the whole parsed pattern. -/
theorem compileRegex_ends (order : HashOrder UInt8) (pattern : List UInt8) :
    Ends (compileRegex order pattern) fun grammar => ∃ ast,
      (RegexParser.parseAlternation pattern (parserFuel pattern) 0).run = some (.ok (ast, pattern.length)) ∧
      ∀ word, grammar.Generates word ↔ word ∈ ast.language := by
  rw [compileRegex]
  split
  · apply Ends.throw
  · apply Ends.bind (RegexParser.parseAlternation_parses pattern).withRun
    rintro ⟨ast, pos⟩ ⟨parsed, wellFormed, inside⟩
    dsimp only
    split
    · apply Ends.throw
    · rename_i atEnd
      have last : pos = pattern.length := by
        have outside := List.getElem?_eq_none_iff.mp atEnd
        omega
      subst last
      apply Ends.bind (Ends.lift fun result build => build)
      rintro ⟨frag, nfa⟩ build
      apply Ends.bind (Ends.lift fun result determinise => determinise)
      intro states determinise
      apply Ends.pure
      exact ⟨ast, parsed, dfaToGrammar_generates wellFormed build determinise⟩

/-- A compiled grammar derives a byte string exactly when the syntax tree of the pattern matches it. -/
theorem compileRegex_generates (order : HashOrder UInt8) (pattern : List UInt8) (grammar : Grammar)
    (compiled : (compileRegex order pattern).run = some (.ok grammar)) :
    ∃ ast, (RegexParser.parseAlternation pattern (parserFuel pattern) 0).run = some (.ok (ast, pattern.length)) ∧
      ∀ word, grammar.Generates word ↔ word ∈ ast.language :=
  (compileRegex_ends order pattern).result compiled

/-- The pattern (a|b)* compiles. -/
theorem compileRegex_generates_iteration :
    ∃ grammar, (compileRegex HashOrder.risingBytes [40, 97, 124, 98, 41, 42]).run = some (.ok grammar) ∧
      ∃ ast, (RegexParser.parseAlternation [40, 97, 124, 98, 41, 42] 39 0).run = some (.ok (ast, 6)) ∧
        ∀ word, grammar.Generates word ↔ word ∈ ast.language := by
  have compiles : ((compileRegex HashOrder.risingBytes [40, 97, 124, 98, 41, 42]).run.bind
      Except.toOption).isSome = true := by decide +kernel
  obtain ⟨grammar, found⟩ := Option.isSome_iff_exists.mp compiles
  obtain ⟨outcome, run, good⟩ := Option.bind_eq_some_iff.mp found
  cases outcome with
  | error error => cases good
  | ok result =>
      cases good
      exact ⟨grammar, run, compileRegex_generates _ _ grammar run⟩

end Pictor
