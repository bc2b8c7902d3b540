import Mathlib.Data.List.Basic

namespace Pictor

inductive ConstraintError where
  | invalidPattern (message : String)
  | invalidSchema (message : String)
  | violated (token : Nat) (reason : String)
  deriving DecidableEq, Repr

namespace RegexNfa

/-- The source marks an open slot with the largest index. -/
inductive NfaState where
  | literal (ch : Char) (next : Option Nat)
  | any (next : Option Nat)
  | split (a b : Option Nat)
  | bracket (chars : List Char) (ranges : List (Char × Char)) (negated : Bool) (next : Option Nat)
  | accept
  deriving DecidableEq, Repr

structure Fragment where
  start : Nat
  outs : List Nat
  deriving DecidableEq, Repr

end RegexNfa

structure RegexNfa where
  states : List RegexNfa.NfaState
  start : Nat
  acceptState : Nat

/-- The result of a compiler with a bounded recursion: no result means that the bound is used up. -/
abbrev PatternCompile := ExceptT String Option

namespace RegexNfa

def outOfFuel {Result : Type} : PatternCompile Result := ExceptT.mk none

/-- Every open slot of the state gets the target. -/
def NfaState.patch (target : Nat) : NfaState → NfaState
  | .literal ch _ => .literal ch (some target)
  | .any _ => .any (some target)
  | .bracket chars ranges negated _ => .bracket chars ranges negated (some target)
  | .split a b => .split (a.or (some target)) (b.or (some target))
  | .accept => .accept

def patch (states : List NfaState) (outs : List Nat) (target : Nat) : List NfaState :=
  outs.foldl (fun states idx => states.modify idx (NfaState.patch target)) states

/-- The first open slot of the state gets the target. -/
def NfaState.connect (target : Nat) : NfaState → NfaState
  | .literal ch next => .literal ch (next.or (some target))
  | .any next => .any (next.or (some target))
  | .bracket chars ranges negated next => .bracket chars ranges negated (next.or (some target))
  | .split none b => .split (some target) b
  | .split (some a) b => .split (some a) (b.or (some target))
  | .accept => .accept

def connect (states : List NfaState) (outs : List Nat) (target : Nat) : List NfaState :=
  outs.foldl (fun states idx => states.modify idx (NfaState.connect target)) states

/-- The fold joins the fragments from the first to the last. -/
def concatRest (states : List NfaState) (acc : Fragment) : List Fragment → Fragment × List NfaState
  | [] => (acc, states)
  | next :: frags => concatRest (connect states acc.outs next.start) ⟨acc.start, next.outs⟩ frags

/-- No fragment is a split with two open slots. -/
def concatFragments (states : List NfaState) : List Fragment → Fragment × List NfaState
  | [] => (⟨states.length, [states.length]⟩, states ++ [.split none none])
  | first :: frags => concatRest states first frags

def alternationRest (states : List NfaState) (current : Fragment) : List Fragment → Fragment × List NfaState
  | [] => (current, states)
  | next :: frags =>
      alternationRest (states ++ [.split (some current.start) (some next.start)])
        ⟨states.length, current.outs ++ next.outs⟩ frags

def alternation (states : List NfaState) : List Fragment → Fragment × List NfaState
  | [] => (⟨states.length, [states.length]⟩, states ++ [.split none none])
  | first :: frags => alternationRest states first frags

def quantifierOptional (states : List NfaState) (frag : Fragment) : Fragment × List NfaState :=
  (⟨states.length, frag.outs ++ [states.length]⟩, states ++ [.split (some frag.start) none])

def quantifierStar (states : List NfaState) (frag : Fragment) : Fragment × List NfaState :=
  (⟨states.length, [states.length]⟩, patch (states ++ [.split (some frag.start) none]) frag.outs states.length)

def quantifierPlus (states : List NfaState) (frag : Fragment) : Fragment × List NfaState :=
  (⟨frag.start, [states.length]⟩, patch (states ++ [.split (some frag.start) none]) frag.outs states.length)

/-- One state is a fragment of its own. -/
def single (states : List NfaState) (state : NfaState) : Fragment × List NfaState :=
  (⟨states.length, [states.length]⟩, states ++ [state])

/-- The state of an escape outside the classes. -/
def escapeState : Char → NfaState
  | 'd' => .bracket [] [('0', '9')] false none
  | 'D' => .bracket [] [('0', '9')] true none
  | 'w' => .bracket ['_'] [('a', 'z'), ('A', 'Z'), ('0', '9')] false none
  | 'W' => .bracket ['_'] [('a', 'z'), ('A', 'Z'), ('0', '9')] true none
  | 's' => .bracket [' ', '\t', '\n', '\r'] [] false none
  | 'S' => .bracket [' ', '\t', '\n', '\r'] [] true none
  | 'n' => .literal '\n' none
  | 'r' => .literal '\r' none
  | 't' => .literal '\t' none
  | escaped => .literal escaped none

/-- The loop over the members of a class. Each round goes forward in the pattern. -/
def classLoop (chars : List Char) : Nat → List Char → List (Char × Char) → Nat → List Char × List (Char × Char) × Nat
  | 0, classChars, ranges, pos => (classChars, ranges, pos)
  | fuel + 1, classChars, ranges, pos =>
      match chars[pos]?, chars[pos + 1]?, chars[pos + 2]? with
      | none, _, _ => (classChars, ranges, pos)
      | some ']', _, _ => (classChars, ranges, pos)
      | some '\\', some escaped, _ =>
          match escaped with
          | 'd' => classLoop chars fuel classChars (ranges ++ [('0', '9')]) (pos + 2)
          | 'w' =>
              classLoop chars fuel (classChars ++ ['_']) (ranges ++ [('a', 'z'), ('A', 'Z'), ('0', '9')]) (pos + 2)
          | 's' => classLoop chars fuel (classChars ++ [' ', '\t', '\n', '\r']) ranges (pos + 2)
          | _ => classLoop chars fuel (classChars ++ [escaped]) ranges (pos + 2)
      | some ch, some '-', some last =>
          if last ≠ ']' then classLoop chars fuel classChars (ranges ++ [(ch, last)]) (pos + 3)
          else classLoop chars fuel (classChars ++ [ch]) ranges (pos + 1)
      | some ch, _, _ => classLoop chars fuel (classChars ++ [ch]) ranges (pos + 1)

/-- The class behind the opening bracket at a position. -/
def parseClass (chars : List Char) (start : Nat) : NfaState × Nat :=
  let negated := chars[start + 1]? = some '^'
  let (classChars, ranges, pos) := classLoop chars chars.length [] [] (if negated then start + 2 else start + 1)
  (.bracket classChars ranges negated none, if chars[pos]? = some ']' then pos + 1 else pos)

/-- The scan for the end of a group counts the parentheses. -/
def groupEnd : List Char → Nat → Nat → Nat
  | [], _, i => i
  | '(' :: rest, depth, i => groupEnd rest (depth + 1) (i + 1)
  | ')' :: rest, depth, i => if depth = 1 then i + 1 else groupEnd rest (depth - 1) (i + 1)
  | ['\\'], _, i => i + 2
  | '\\' :: _ :: rest, depth, i => groupEnd rest depth (i + 2)
  | _ :: rest, depth, i => groupEnd rest depth (i + 1)

/-- The quantifier behind an atom, if there is one. -/
def quantify (chars : List Char) (atom : Fragment) (pos : Nat) (states : List NfaState) :
    Fragment × Nat × List NfaState :=
  match chars[pos]? with
  | some '?' =>
      let (frag, states) := quantifierOptional states atom
      (frag, pos + 1, states)
  | some '*' =>
      let (frag, states) := quantifierStar states atom
      (frag, pos + 1, states)
  | some '+' =>
      let (frag, states) := quantifierPlus states atom
      (frag, pos + 1, states)
  | _ => (atom, pos, states)

def isQuantifier (ch : Char) : Bool := ch = '*' || ch = '+' || ch = '?'

mutual

def compile (chars : List Char) : Nat → Nat → List NfaState → PatternCompile (Fragment × List NfaState)
  | 0, _, _ => outOfFuel
  | fuel + 1, pos, states => do
      let (altFrags, curFrags, states) ← compileLoop chars fuel pos [] [] states
      let (seq, states) := concatFragments states curFrags
      match altFrags with
      | [] => pure (seq, states)
      | _ :: _ => pure (alternation states (altFrags ++ [seq]))

/-- The loop over a sequence of alternatives. A closing parenthesis ends it. -/
def compileLoop (chars : List Char) : Nat → Nat → List Fragment → List Fragment → List NfaState →
    PatternCompile (List Fragment × List Fragment × List NfaState)
  | 0, _, _, _, _ => outOfFuel
  | fuel + 1, pos, altFrags, curFrags, states =>
      match chars[pos]? with
      | none => pure (altFrags, curFrags, states)
      | some ch =>
          if ch = '|' then
            let (seq, states) := concatFragments states curFrags
            compileLoop chars fuel (pos + 1) (altFrags ++ [seq]) [] states
          else if ch = ')' then pure (altFrags, curFrags, states)
          else do
            let (atom, pos, states) ← parseAtom chars fuel pos states
            let (frag, pos, states) := quantify chars atom pos states
            compileLoop chars fuel pos altFrags (curFrags ++ [frag]) states

def parseAtom (chars : List Char) : Nat → Nat → List NfaState → PatternCompile (Fragment × Nat × List NfaState)
  | 0, _, _ => outOfFuel
  | fuel + 1, pos, states =>
      match chars[pos]? with
      | none => throw "Unexpected end of pattern"
      | some ch =>
          if ch = '(' then do
            let (inner, states) ← compile chars fuel (pos + 1) states
            pure (inner, groupEnd (chars.drop (pos + 1)) 1 (pos + 1), states)
          else if ch = '[' then
            let (state, pos) := parseClass chars pos
            let (frag, states) := single states state
            pure (frag, pos, states)
          else if ch = '.' then
            let (frag, states) := single states (.any none)
            pure (frag, pos + 1, states)
          else if ch = '\\' then
            match chars[pos + 1]? with
            | none => throw "Trailing backslash in pattern"
            | some escaped =>
                let (frag, states) := single states (escapeState escaped)
                pure (frag, pos + 2, states)
          else if isQuantifier ch then
            throw ("Unexpected quantifier '" ++ String.singleton ch ++ "' at position " ++ toString pos)
          else
            let (frag, states) := single states (.literal ch none)
            pure (frag, pos + 1, states)

end

/-- The recursion goes forward in the pattern. -/
def compileFuel (chars : List Char) : Nat := 3 * chars.length + 3

def fromPattern (pattern : List Char) : ExceptT ConstraintError Option RegexNfa :=
  ExceptT.mk ((compile pattern (compileFuel pattern) 0 []).run.map fun outcome =>
    match outcome with
    | .error message => .error (.invalidPattern message)
    | .ok (frag, states) =>
        .ok ⟨patch (states ++ [.accept]) frag.outs states.length, frag.start, states.length⟩)

/-- The loop of the closure. The top of the stack is its first element, and the closure holds the visited states. -/
def closeLoop (states : List NfaState) : Nat → List Nat → List Nat → List Nat
  | 0, _, closure => closure
  | _ + 1, [], closure => closure
  | fuel + 1, s :: stack, closure =>
      if s ∈ closure then closeLoop states fuel stack closure
      else
        match states[s]? with
        | some (.split a b) => closeLoop states fuel (b.toList ++ a.toList ++ stack) (closure ++ [s])
        | _ => closeLoop states fuel stack (closure ++ [s])

/-- A visited split pushes at most two states. -/
def epsilonClosure (nfa : RegexNfa) (states : List Nat) : List Nat :=
  closeLoop nfa.states (states.length + 2 * nfa.states.length) states.reverse []

/-- The membership of a character in a class. -/
def inBracket (chars : List Char) (ranges : List (Char × Char)) (negated : Bool) (ch : Char) : Bool :=
  (chars.contains ch || ranges.any fun range => range.1 ≤ ch && ch ≤ range.2) != negated

/-- The state behind one state and a character. -/
def NfaState.target (ch : Char) : NfaState → Option Nat
  | .literal c next => if c = ch then next else none
  | .any next => next
  | .bracket chars ranges negated next => if inBracket chars ranges negated ch then next else none
  | .split _ _ => none
  | .accept => none

def step (nfa : RegexNfa) (states : List Nat) (ch : Char) : List Nat :=
  epsilonClosure nfa (states.filterMap fun s => nfa.states[s]?.bind (NfaState.target ch))

def isAccepting (nfa : RegexNfa) (states : List Nat) : Bool := states.contains nfa.acceptState

def isFullMatch (nfa : RegexNfa) (text : List Char) : Bool :=
  nfa.isAccepting (text.foldl nfa.step (nfa.epsilonClosure [nfa.start]))

end RegexNfa

structure RegexConstraint where
  pattern : List Char
  nfa : RegexNfa
  currentStates : List Nat
  matchedSoFar : List Char

namespace RegexConstraint

def new (pattern : List Char) : ExceptT ConstraintError Option RegexConstraint := do
  let nfa ← RegexNfa.fromPattern pattern
  pure ⟨pattern, nfa, nfa.epsilonClosure [nfa.start], []⟩

/-- A pattern that does not compile matches nothing. -/
def isMatch (pattern text : List Char) : Option Bool :=
  (RegexNfa.fromPattern pattern).run.map fun outcome =>
    match outcome with
    | .ok nfa => nfa.isFullMatch text
    | .error _ => false

end RegexConstraint

end Pictor
