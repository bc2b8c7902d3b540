import Pictor.Construction.Rag.Chunker

namespace Pictor.Chunker
open Utf8 LineText TextSlice List

def Blank (line : List Char) : Prop := trim line = []

instance (line : List Char) : Decidable (Blank line) := inferInstanceAs (Decidable (_ = _))

/-- The trimmed maximal runs of lines that are not blank. -/
def paragraphs (text : List Char) : List (List Char) :=
  (((text.splitOn '\n').splitOnP fun line => decide (Blank line)).filter (· ≠ [])).map fun run =>
    trim (joinWith ['\n'] run)

/-- The last line is blank, and it is the only line or stands behind a line that is not. -/
def EndsFresh (lines : List (List Char)) : Prop :=
  ∃ front last, lines = front ++ [last] ∧ Blank last ∧ ∀ line, front.getLast? = some line → ¬ Blank line

variable {text line before front back : List Char} {lines run : List (List Char)} {docId i : Nat}
  {state : ParagraphState}

theorem blank_iff : Blank line ↔ White line := trim_eq_nil

/-- The paragraph of a run of lines. -/
def runParagraph (run : List (List Char)) : List (List Char) := if run = [] then [] else [trim (joinWith ['\n'] run)]

/-- The paragraphs of the lines behind an open run. -/
def paragraphsFrom : List (List Char) → List (List Char) → List (List Char)
  | run, [] => runParagraph run
  | run, line :: lines =>
      if Blank line then runParagraph run ++ paragraphsFrom [] lines else paragraphsFrom (run ++ [line]) lines

theorem modifyHead_nil (runs : List (List (List Char))) : runs.modifyHead ([] ++ ·) = runs :=
  congrFun modifyHead_id runs

theorem paragraphsFrom_eq (run lines : List (List Char)) : paragraphsFrom run lines =
    ((((lines.splitOnP fun line => decide (Blank line)).modifyHead (run ++ ·)).filter (· ≠ [])).map fun run =>
      trim (joinWith ['\n'] run)) := by
  have single (run : List (List Char)) (later : List (List (List Char))) :
      ((run :: later).filter (· ≠ [])).map (fun run => trim (joinWith ['\n'] run)) =
        runParagraph run ++ (later.filter (· ≠ [])).map fun run => trim (joinWith ['\n'] run) := by
    rw [runParagraph, filter_cons]
    by_cases empty : run = [] <;> simp [empty]
  induction lines generalizing run with
  | nil =>
      rw [splitOnP_nil, modifyHead_cons, append_nil, single, paragraphsFrom, filter_nil,
        map_nil, append_nil]
  | cons line lines ih =>
      rw [paragraphsFrom, splitOnP_cons_eq_if_modifyHead]
      by_cases blank : Blank line
      · rw [if_pos blank, if_pos (decide_eq_true blank), modifyHead_cons, append_nil, single, ih]
        rw [modifyHead_nil]
      · rw [if_neg blank, if_neg (by simpa using blank), ih, modifyHead_modifyHead]
        congr 3
        funext rest
        exact append_assoc ..

theorem paragraphs_eq (text : List Char) : paragraphs text = paragraphsFrom [] (text.splitOn '\n') := by
  rw [paragraphsFrom_eq, paragraphs, modifyHead_nil]

/-- A newline, or the end of the text, stands at a byte offset. -/
def AtBreak (text : List Char) (offset : Nat) : Prop :=
  ∃ front back, text = front ++ back ∧ size front = offset ∧ ∀ c, back.head? = some c → c = '\n'

/-- The first chunk is placed at the start, each later one at a break. -/
structure Placed (text : List Char) (chunks : List Chunk) : Prop where
  first : ∀ chunk, chunks[0]? = some chunk → chunk.charOffset = 0
  later : ∀ index chunk, chunks[index + 1]? = some chunk → AtBreak text chunk.charOffset

/-- The cursor before and behind the first chunk. -/
structure Cursor (text : List Char) (chunks : List Chunk) (byteCursor : Nat) : Prop where
  placed : Placed text chunks
  start : chunks = [] → byteCursor = 0
  moved : chunks ≠ [] → AtBreak text byteCursor

theorem emit_blank (blank : Blank line) : state.emit docId line = state.chunks := if_pos blank

theorem emit_solid (solid : ¬ Blank line) : state.emit docId line =
    state.chunks ++ [Chunk.new (trim line) docId state.chunks.length state.byteCursor] := if_neg solid

/-- An emitted chunk takes its place from the cursor. -/
theorem Placed.emit (cursor : Cursor text state.chunks state.byteCursor) (line : List Char) :
    Placed text (state.emit docId line) := by
  by_cases blank : Blank line
  · rw [emit_blank blank]
    exact cursor.placed
  · rw [emit_solid blank]
    cases empty : state.chunks with
    | nil =>
        refine ⟨fun chunk found => ?_, fun index chunk found => nomatch found⟩
        cases found
        exact cursor.start empty
    | cons head chunks =>
        refine ⟨fun chunk found => cursor.placed.first chunk (by rw [empty]; exact found), fun index chunk found => ?_⟩
        by_cases old : index + 1 < (head :: chunks).length
        · rw [getElem?_append_left old] at found
          exact cursor.placed.later index chunk (by rw [empty]; exact found)
        · rw [getElem?_append_right (Nat.le_of_not_lt old), getElem?_singleton] at found
          split at found
          case isTrue =>
            cases found
            exact cursor.moved (by rw [empty]; exact cons_ne_nil _ _)
          case isFalse => cases found

/-- The lines of a run, each with its newline. -/
def runText (run : List (List Char)) : List Char := run.flatMap (· ++ ['\n'])

theorem runText_cons (line : List Char) (run : List (List Char)) :
    runText (line :: run) = line ++ ['\n'] ++ runText run := flatMap_cons

theorem runText_concat (run : List (List Char)) (line : List Char) :
    runText (run ++ [line]) = runText run ++ (line ++ ['\n']) := by
  rw [runText, flatMap_append, flatMap_singleton, runText]

theorem joinWith_concat (run : List (List Char)) (line : List Char) :
    joinWith ['\n'] (run ++ [line]) = runText run ++ line := by
  rw [joinWith]
  induction run with
  | nil => rw [nil_append, intercalate_singleton]; rfl
  | cons first run ih =>
      rw [cons_append, intercalate_cons_of_ne_nil (by simp), ih, runText_cons]
      simp only [append_assoc]

theorem newline_spaces : White ['\n'] := by
  rintro c (_ | ⟨_, none⟩)
  · rfl
  · cases none

theorem trim_runText (run : List (List Char)) : trim (runText run) = trim (joinWith ['\n'] run) := by
  rcases eq_nil_or_concat run with rfl | ⟨run, line, rfl⟩
  · rfl
  · rw [concat_eq_append, runText_concat, joinWith_concat, ← append_assoc, trim_behind _ newline_spaces]

/-- A run with a line that is not blank is not blank. -/
theorem blank_append : Blank (front ++ back) ↔ Blank front ∧ Blank back := by
  simp only [blank_iff]
  refine ⟨fun spaces => ⟨fun c member => spaces c (mem_append_left _ member),
    fun c member => spaces c (mem_append_right _ member)⟩, fun both => both.1.append both.2⟩

theorem blank_runText (solid : ∀ line ∈ run, ¬ Blank line) : Blank (runText run) ↔ run = [] := by
  cases run with
  | nil => exact ⟨fun _ => rfl, fun _ => rfl⟩
  | cons line run =>
      refine ⟨fun blank => ?_, nofun⟩
      rw [runText_cons, blank_append, blank_append] at blank
      exact absurd blank.1.1 (solid line mem_cons_self)

section LineEnds

/-- The first blank line behind other lines ends their paragraph. -/
theorem lineEnd_fresh {para : List Char} (blank : Blank line) (open_ : state.prevLineEmpty = false)
    (place : text = before ++ (para ++ (line ++ back))) (start : state.paraStart = size before)
    (start' : state.lineStart = size before + size para) :
    lineEnd text docId (state.lineStart + size line) state =
      some ⟨state.emit docId para, if Blank para then state.byteCursor else state.lineStart + size line,
        state.lineStart + size line + 1, true, state.lineStart + size line + 1⟩ := by
  have here : slice text state.lineStart (state.lineStart + size line) = some line := by
    rw [start', place, ← append_assoc, ← size_append]
    exact slice_parts _ _ _
  have there : slice text state.paraStart state.lineStart = some para := by
    rw [start, start', place]
    exact slice_parts _ _ _
  rw [lineEnd, here, Option.bind_eq_bind, Option.bind_some, there]
  dsimp only
  rw [if_pos ⟨blank, open_⟩, show decide (trim line = []) = true from decide_eq_true blank]
  rfl

/-- A further blank line moves on. -/
theorem lineEnd_blank (blank : Blank line) (closed : state.prevLineEmpty = true)
    (place : text = front ++ (line ++ back)) (start : state.lineStart = size front) :
    lineEnd text docId (state.lineStart + size line) state =
      some { state with lineStart := state.lineStart + size line + 1 } := by
  have here : slice text state.lineStart (state.lineStart + size line) = some line := by
    rw [start, place]
    exact slice_parts _ _ _
  rw [lineEnd, here, Option.bind_eq_bind, Option.bind_some]
  dsimp only
  rw [if_neg (by rw [closed]; simp), if_neg fun both => both.1 blank,
    show decide (trim line = []) = true from decide_eq_true blank, ← closed]
  rfl

/-- A line that is not blank begins a paragraph behind a blank line, and else belongs to the open one. -/
theorem lineEnd_solid (solid : ¬ Blank line) (place : text = front ++ (line ++ back))
    (start : state.lineStart = size front) :
    lineEnd text docId (state.lineStart + size line) state =
      some { state with
        paraStart := if state.prevLineEmpty = true then state.lineStart else state.paraStart
        prevLineEmpty := false
        lineStart := state.lineStart + size line + 1 } := by
  have here : slice text state.lineStart (state.lineStart + size line) = some line := by
    rw [start, place]
    exact slice_parts _ _ _
  rw [lineEnd, here, Option.bind_eq_bind, Option.bind_some]
  dsimp only
  rw [if_neg fun both => solid both.1, show decide (trim line = []) = false from decide_eq_false solid]
  by_cases closed : state.prevLineEmpty = true
  · rw [if_pos ⟨solid, closed⟩, if_pos closed]
    rfl
  · rw [if_neg fun both => closed both.2, if_neg closed]
    rfl

/-- The bytes of a line pass without an end of a line. -/
theorem paragraphLoop_line (unbroken : '\n' ∉ line) (bytes : List UInt8) (i : Nat) (state : ParagraphState) :
    paragraphLoop text docId (encode line ++ bytes) i state = paragraphLoop text docId bytes (i + size line) state := by
  have others : ∀ byte ∈ encode line, byte ≠ 10 := by
    rintro byte member rfl
    exact unbroken (mem_of_mem_encode (by decide) member)
  rw [size]
  generalize encode line = letters at others
  induction letters generalizing i with
  | nil => rfl
  | cons byte letters ih =>
      rw [cons_append, paragraphLoop, if_neg (others byte mem_cons_self),
        ih (i + 1) fun other member => others other (mem_cons_of_mem _ member), length_cons,
        Nat.add_right_comm, Nat.add_assoc]

end LineEnds

/-- The state of the scan at the start of a line: the lines of the open run stand in front of it. -/
structure Reads (text front : List Char) (run : List (List Char)) (state : ParagraphState) : Prop where
  cursor : Cursor text state.chunks state.byteCursor
  line : state.lineStart = size front
  solid : ∀ line ∈ run, ¬ Blank line
  open_ : state.prevLineEmpty = false → ∃ before, front = before ++ runText run ∧ state.paraStart = size before
  closed : state.prevLineEmpty = true → run = [] ∧
    ∃ before spaces, front = before ++ spaces ∧ White spaces ∧ state.paraStart = size before

def texts (chunks : List Chunk) : List (List Char) := chunks.map Chunk.text

theorem texts_emit (line : List Char) : texts (state.emit docId line) =
    texts state.chunks ++ if Blank line then [] else [trim line] := by
  by_cases blank : Blank line
  · rw [emit_blank blank, if_pos blank, append_nil]
  · rw [emit_solid blank, if_neg blank, texts, map_append]
    rfl

theorem runParagraph_eq (solid : ∀ line ∈ run, ¬ Blank line) :
    (if Blank (runText run) then [] else [trim (runText run)]) = runParagraph run := by
  rw [runParagraph, trim_runText]
  by_cases empty : run = []
  · rw [if_pos ((blank_runText solid).mpr empty), if_pos empty]
  · rw [if_neg fun blank => empty ((blank_runText solid).mp blank), if_neg empty]

/-- A line with its newline keeps the scan in step with the lines. -/
theorem Reads.step (docId : Nat) (reads : Reads text front run state) (place : text = front ++ (line ++ '\n' :: back)) :
    ∃ next, lineEnd text docId (state.lineStart + size line) state = some next ∧
      Reads text (front ++ (line ++ ['\n'])) (if Blank line then [] else run ++ [line]) next ∧
      texts next.chunks = texts state.chunks ++ (if Blank line then runParagraph run else []) ∧
      next.prevLineEmpty = decide (Blank line) := by
  have moved : state.lineStart + size line + 1 = size (front ++ (line ++ ['\n'])) := by
    rw [size_append, size_append, reads.line, Nat.add_assoc]
    rfl
  by_cases blank : Blank line
  · by_cases fresh : state.prevLineEmpty = false
    · obtain ⟨before, same, start⟩ := reads.open_ fresh
      have parts : text = before ++ (runText run ++ (line ++ '\n' :: back)) := by rw [place, same, append_assoc]
      have start' : state.lineStart = size before + size (runText run) := by rw [reads.line, same, size_append]
      refine ⟨_, lineEnd_fresh blank fresh parts start start', ⟨⟨Placed.emit reads.cursor _, ?_, ?_⟩, moved, ?_, nofun, fun _ => ⟨if_pos blank, ?_⟩⟩, ?_,
        (decide_eq_true blank).symm⟩
      · intro none
        by_cases blank' : Blank (runText run)
        · rw [emit_blank blank'] at none
          rw [if_pos blank']
          exact reads.cursor.start none
        · rw [emit_solid blank'] at none
          simp at none
      · intro some_
        by_cases blank' : Blank (runText run)
        · rw [emit_blank blank'] at some_
          rw [if_pos blank']
          exact reads.cursor.moved some_
        · rw [if_neg blank']
          refine ⟨front ++ line, '\n' :: back, by rw [place, append_assoc], ?_, fun c head => ?_⟩
          · rw [size_append, reads.line]
          · exact (Option.some.inj head).symm
      · rw [if_pos blank]
        exact nofun
      · exact ⟨_, [], (append_nil _).symm, nofun, moved⟩
      · rw [texts_emit, runParagraph_eq reads.solid, if_pos blank]
    · have closed : state.prevLineEmpty = true := Bool.not_eq_false _ ▸ fresh
      obtain ⟨rfl, before, spaces, same, white, start⟩ := reads.closed closed
      refine ⟨_, lineEnd_blank blank closed place reads.line, ⟨reads.cursor, moved, ?_, ?_, fun _ =>
        ⟨if_pos blank, before, spaces ++ (line ++ ['\n']), by rw [same, append_assoc],
          white.append ((blank_iff.mp blank).append newline_spaces), start⟩⟩, ?_, ?_⟩
      · rw [if_pos blank]
        exact nofun
      · intro wrong
        exact absurd (wrong.symm.trans closed) Bool.false_ne_true
      · rw [if_pos blank, runParagraph, if_pos rfl, append_nil]
      · exact closed.trans (decide_eq_true blank).symm
  · refine ⟨_, lineEnd_solid blank place reads.line, ⟨reads.cursor, moved, ?_, fun _ => ?_, nofun⟩, ?_,
      (decide_eq_false blank).symm⟩
    · rw [if_neg blank]
      intro other member
      rcases mem_append.mp member with old | new
      · exact reads.solid other old
      · rwa [mem_singleton.mp new]
    · rw [if_neg blank, runText_concat]
      by_cases closed : state.prevLineEmpty = true
      · obtain ⟨rfl, _⟩ := reads.closed closed
        exact ⟨front, rfl, by rw [if_pos closed, reads.line]⟩
      · obtain ⟨before, same, start⟩ := reads.open_ (Bool.eq_false_iff.mpr closed)
        exact ⟨before, by rw [same, append_assoc], by rw [if_neg closed, start]⟩
    · rw [if_neg blank, append_nil]

/-- The end of the text behind its last line: a first blank line moves the paragraph behind the end. -/
theorem Reads.last (reads : Reads text front run state) (place : text = front ++ line) :
    (Blank line ∧ state.prevLineEmpty = false →
      paragraphLoop text docId [] (state.lineStart + size line) state = none) ∧
    (¬ (Blank line ∧ state.prevLineEmpty = false) →
      ∃ chunks, paragraphLoop text docId [] (state.lineStart + size line) state = some chunks ∧
        texts chunks = texts state.chunks ++ paragraphsFrom run [line] ∧ Placed text chunks) := by
  have place' : text = front ++ (line ++ []) := by rw [place, append_nil]
  constructor
  · rintro ⟨blank, fresh⟩
    obtain ⟨before, same, start⟩ := reads.open_ fresh
    have parts : text = before ++ (runText run ++ (line ++ [])) := by rw [place', same, append_assoc]
    have start' : state.lineStart = size before + size (runText run) := by rw [reads.line, same, size_append]
    have behind : sliceFrom text (state.lineStart + size line + 1) = none := by
      rw [sliceFrom, splitAt?_eq_none, Option.map_none]
      rw [place, size_append, reads.line]
      exact Nat.lt_succ_self _
    rw [paragraphLoop, lineEnd_fresh blank fresh parts start start', Option.bind_eq_bind, Option.bind_some, behind]
    rfl
  · intro late
    by_cases blank : Blank line
    · have closed : state.prevLineEmpty = true := Bool.not_eq_false _ ▸ fun fresh => late ⟨blank, fresh⟩
      obtain ⟨rfl, before, spaces, same, white, start⟩ := reads.closed closed
      have rest : sliceFrom text state.paraStart = some (spaces ++ line) := by
        rw [start, place, same, append_assoc]
        exact sliceFrom_append _ _
      refine ⟨state.chunks, ?_, ?_, reads.cursor.placed⟩
      · rw [paragraphLoop, lineEnd_blank blank closed place' reads.line, Option.bind_eq_bind, Option.bind_some, rest]
        exact congrArg some (emit_blank (blank_append.mpr ⟨blank_iff.mpr white, blank⟩))
      · rw [paragraphsFrom, if_pos blank, paragraphsFrom, runParagraph, if_pos rfl, append_nil, append_nil]
    · have rest : sliceFrom text (if state.prevLineEmpty = true then state.lineStart else state.paraStart) =
          some (joinWith ['\n'] (run ++ [line])) := by
        rw [joinWith_concat]
        by_cases closed : state.prevLineEmpty = true
        · obtain ⟨rfl, _⟩ := reads.closed closed
          rw [if_pos closed, reads.line, place]
          exact sliceFrom_append _ _
        · obtain ⟨before, same, start⟩ := reads.open_ (Bool.eq_false_iff.mpr closed)
          rw [if_neg closed, start, place, same, append_assoc]
          exact sliceFrom_append _ _
      have solid : ¬ Blank (joinWith ['\n'] (run ++ [line])) := by
        rw [joinWith_concat, blank_append]
        exact fun both => blank both.2
      refine ⟨state.emit docId (joinWith ['\n'] (run ++ [line])), ?_, ?_, Placed.emit reads.cursor _⟩
      · rw [paragraphLoop, lineEnd_solid blank place' reads.line, Option.bind_eq_bind, Option.bind_some, rest]
        rfl
      · rw [texts_emit, if_neg solid, paragraphsFrom, if_neg blank, paragraphsFrom, runParagraph, if_neg (by simp)]

/-- A blank last line that follows no blank line. -/
def LateBlank : Bool → List (List Char) → Prop
  | _, [] => False
  | prev, [line] => Blank line ∧ prev = false
  | _, line :: next :: lines => LateBlank (decide (Blank line)) (next :: lines)

theorem lateBlank_iff (prev : Bool) (lines : List (List Char)) : LateBlank prev lines ↔
    ∃ front last, lines = front ++ [last] ∧ Blank last ∧ (∀ line, front.getLast? = some line → ¬ Blank line) ∧
      (front = [] → prev = false) := by
  fun_induction LateBlank prev lines with
  | case1 prev => exact ⟨False.elim, fun ⟨front, last, same, _⟩ => by simp at same⟩
  | case2 prev line =>
      constructor
      · rintro ⟨blank, fresh⟩
        exact ⟨[], line, rfl, blank, nofun, fun _ => fresh⟩
      · rintro ⟨front, last, same, blank, _, fresh⟩
        cases front with
        | nil =>
            cases same
            exact ⟨blank, fresh rfl⟩
        | cons first front => simp at same
  | case3 prev line next lines ih =>
      rw [ih]
      constructor
      · rintro ⟨front, last, same, blank, solid, fresh⟩
        refine ⟨line :: front, last, congrArg _ same, blank, fun other final => ?_, nofun⟩
        cases front with
        | nil =>
            cases final
            exact of_decide_eq_false (fresh rfl)
        | cons first front => exact solid other (by rwa [getLast?_cons_cons] at final)
      · rintro ⟨front, last, same, blank, solid, _⟩
        cases front with
        | nil => simp at same
        | cons first front =>
            rw [cons_append, List.cons.injEq] at same
            obtain ⟨rfl, same⟩ := same
            refine ⟨front, last, same, blank, fun other final => ?_, fun none => ?_⟩
            · cases front with
              | nil => cases final
              | cons second front => exact solid other (by rwa [getLast?_cons_cons])
            · subst none
              exact decide_eq_false (solid line rfl)

/-- The scan of the remaining lines. -/
theorem paragraphLoop_lines (docId : Nat) (reads : Reads text front run state) (some_ : lines ≠ [])
    (unbroken : ∀ line ∈ lines, '\n' ∉ line) (place : text = front ++ joinWith ['\n'] lines) :
    (LateBlank state.prevLineEmpty lines →
      paragraphLoop text docId (encode (joinWith ['\n'] lines)) state.lineStart state = none) ∧
    (¬ LateBlank state.prevLineEmpty lines →
      ∃ chunks, paragraphLoop text docId (encode (joinWith ['\n'] lines)) state.lineStart state = some chunks ∧
        texts chunks = texts state.chunks ++ paragraphsFrom run lines ∧ Placed text chunks) := by
  induction lines generalizing front run state with
  | nil => exact absurd rfl some_
  | cons line lines ih =>
      cases lines with
      | nil =>
          rw [joinWith, intercalate_singleton] at place ⊢
          have passed : paragraphLoop text docId (encode line ++ []) state.lineStart state =
              paragraphLoop text docId [] (state.lineStart + size line) state :=
            paragraphLoop_line (unbroken line mem_cons_self) [] state.lineStart state
          rw [append_nil] at passed
          rw [passed]
          exact reads.last place
      | cons second lines =>
          have joined : joinWith ['\n'] (line :: second :: lines) =
              line ++ '\n' :: joinWith ['\n'] (second :: lines) := by
            rw [joinWith, intercalate_cons_cons, append_assoc]
            rfl
          rw [joined] at place ⊢
          obtain ⟨next, stepped, reads', counted, flag⟩ := reads.step docId place
          have passed : paragraphLoop text docId (encode (line ++ '\n' :: joinWith ['\n'] (second :: lines)))
              state.lineStart state =
                paragraphLoop text docId (encode (joinWith ['\n'] (second :: lines))) next.lineStart next := by
            rw [encode_append, paragraphLoop_line (unbroken line mem_cons_self)]
            change paragraphLoop text docId (10 :: encode (joinWith ['\n'] (second :: lines))) _ state = _
            rw [paragraphLoop, if_pos rfl, stepped, Option.bind_some, reads'.line, reads.line, size_append, size_append]
            rfl
          have later := ih reads' (cons_ne_nil _ _) (fun other member => unbroken other (mem_cons_of_mem _ member))
            (by rw [place, append_assoc, append_assoc]; rfl)
          rw [passed, LateBlank, ← flag, paragraphsFrom]
          refine ⟨later.1, fun late => ?_⟩
          obtain ⟨chunks, ran, same, placed⟩ := later.2 late
          refine ⟨chunks, ran, ?_, placed⟩
          rw [same, counted, append_assoc]
          by_cases blank : Blank line
          · rw [if_pos blank, if_pos blank, if_pos blank]
          · rw [if_neg blank, if_neg blank, if_neg blank, nil_append]

/-- No line holds a newline. -/
theorem splitOn_unbroken (text : List Char) : ∀ line ∈ text.splitOn '\n', '\n' ∉ line := by
  induction text with
  | nil =>
      intro line member
      rw [splitOn_nil, mem_singleton] at member
      exact member ▸ not_mem_nil
  | cons c text ih =>
      rw [splitOn_cons_eq_if_modifyHead]
      split
      case isTrue =>
        rintro line (_ | ⟨_, member⟩)
        · exact not_mem_nil
        · exact ih line member
      case isFalse other =>
        cases parts : text.splitOn '\n' with
        | nil => exact nofun
        | cons first lines =>
            rw [parts] at ih
            rintro line (_ | ⟨_, member⟩)
            · intro inside
              rcases mem_cons.mp inside with same | inside
              · exact other (beq_iff_eq.mpr same.symm)
              · exact ih first mem_cons_self inside
            · exact ih line (mem_cons_of_mem _ member)

/-- The scan stops exactly at a text whose last line is the first blank one of its run. -/
theorem chunkByParagraphs_eq (text : List Char) (docId : Nat) :
    (text ≠ [] ∧ EndsFresh (text.splitOn '\n') → chunkByParagraphs text docId = none) ∧
    (¬ (text ≠ [] ∧ EndsFresh (text.splitOn '\n')) → ∃ chunks, chunkByParagraphs text docId = some chunks ∧
      texts chunks = paragraphs text ∧ Placed text chunks) := by
  have late : LateBlank false (text.splitOn '\n') ↔ EndsFresh (text.splitOn '\n') := by
    rw [lateBlank_iff, EndsFresh]
    simp only [implies_true, and_true]
  by_cases empty : text = []
  · refine ⟨fun wrong => absurd empty wrong.1, fun _ => ?_⟩
    subst empty
    exact ⟨[], rfl, rfl, nofun, nofun⟩
  have start : Reads text [] [] ⟨[], 0, 0, false, 0⟩ := by
    refine ⟨⟨⟨nofun, nofun⟩, fun _ => rfl, fun wrong => absurd rfl wrong⟩, rfl, nofun, fun _ => ⟨[], rfl, rfl⟩, nofun⟩
  have joined : joinWith ['\n'] (text.splitOn '\n') = text := intercalate_splitOn '\n'
  have scanned := paragraphLoop_lines docId start (splitOn_ne_nil _ _) (splitOn_unbroken text) joined.symm
  rw [joined, late] at scanned
  rw [chunkByParagraphs, if_neg empty, paragraphs_eq]
  exact ⟨fun both => scanned.1 both.2, fun other => scanned.2 fun fresh => other ⟨empty, fresh⟩⟩

/-- The paragraphs hold each character that is no white space once, in the order of the text. -/
theorem solids_paragraphs (text : List Char) : solids (paragraphs text).flatten = solids text := by
  have grouped (run lines : List (List Char)) :
      solids (paragraphsFrom run lines).flatten = (run ++ lines).flatMap solids := by
    have single (run : List (List Char)) : solids (runParagraph run).flatten = run.flatMap solids := by
      rw [runParagraph]
      by_cases empty : run = []
      · rw [if_pos empty, empty]
        rfl
      · rw [if_neg empty, flatten_singleton, solids_trim, joinWith, solids_intercalate newline_spaces]
    induction lines generalizing run with
    | nil => rw [paragraphsFrom, single, append_nil]
    | cons line lines ih =>
        rw [paragraphsFrom]
        by_cases blank : Blank line
        · rw [if_pos blank, flatten_append, solids_append, single, ih, nil_append, flatMap_append,
            flatMap_cons, solids_spaces (blank_iff.mp blank), nil_append]
        · rw [if_neg blank, ih, append_assoc, singleton_append]
  have joined : joinWith ['\n'] (text.splitOn '\n') = text := intercalate_splitOn '\n'
  rw [paragraphs_eq, grouped, nil_append, ← solids_intercalate newline_spaces, ← joinWith, joined]

/-- The paragraphs become the chunks exactly if the text is empty, or its last line is not blank, or
    the line in front of it is blank as well. -/
theorem chunkByParagraphs_exact_iff (text : List Char) (docId : Nat) :
    (∃ chunks, chunkByParagraphs text docId = some chunks ∧ texts chunks = paragraphs text ∧
      solids (texts chunks).flatten = solids text) ↔ text = [] ∨ ¬ EndsFresh (text.splitOn '\n') := by
  obtain ⟨stops, runs⟩ := chunkByParagraphs_eq text docId
  constructor
  · rintro ⟨chunks, ran, _⟩
    by_contra! wrong
    rw [stops wrong] at ran
    cases ran
  · intro fine
    obtain ⟨chunks, ran, same, _⟩ := runs fun wrong => fine.elim wrong.1 fun other => other wrong.2
    refine ⟨chunks, ran, same, ?_⟩
    rw [same, solids_paragraphs]

/-- A text that ends with its only newline stops the scan. -/
theorem chunkByParagraphs_gap : chunkByParagraphs ['a', '\n'] 0 = none ∧ paragraphs ['a', '\n'] = [['a']] := by
  refine ⟨by decide, by decide⟩

end Pictor.Chunker
