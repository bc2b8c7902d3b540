/-
A slice of the text at an offset that is no place between two characters stops the run.
-/

import Mathlib
import Pictor.Library.LineText
import Pictor.Library.TextSlice

namespace Pictor.Chunker
open Utf8 LineText TextSlice

structure ChunkConfig where
  chunkSize : Nat := 512
  overlap : Nat := 64
  minChunkSize : Nat := 32

def ChunkConfig.validate (config : ChunkConfig) : Except String Unit :=
  if config.chunkSize = 0 then .error "chunk_size must be > 0"
  else if config.chunkSize ≤ config.overlap then
    .error ("overlap (" ++ toString config.overlap ++ ") must be < chunk_size (" ++ toString config.chunkSize ++ ")")
  else .ok ()

/-- A metadata value; a float is its bits. -/
inductive MetadataValue where
  | string (text : List Char)
  | int (number : Int64)
  | float (bits : UInt64)
  | bool (flag : Bool)

structure Chunk where
  text : List Char
  docId : Nat
  chunkIdx : Nat
  charOffset : Nat
  metadata : List (List Char × MetadataValue)

def Chunk.new (text : List Char) (docId chunkIdx charOffset : Nat) : Chunk := ⟨text, docId, chunkIdx, charOffset, []⟩

def charIndices : Nat → List Char → List (Nat × Char)
  | _, [] => []
  | offset, c :: text => (offset, c) :: charIndices (offset + c.utf8Size) text

/-- The byte offset of a character, or the size of the text. -/
def byteOffsetOfChar (text : List Char) (n : Nat) : Nat :=
  (((charIndices 0 text)[n]?).map Prod.fst).getD (size text)

/-- The windows of a loop that moves by a step and ends with the window that reaches the end. -/
def windows (length step total : Nat) (moves : 0 < step) (start : Nat) : List (Nat × Nat) :=
  if start < total then
    let stop := min (start + length) total
    (start, stop) :: if stop = total then [] else windows length step total moves (start + step)
  else []
  termination_by total - start

/-- One pass of the window loop: a window below the smallest size is left out. -/
def pushWindow (text : List Char) (docId : Nat) (config : ChunkConfig) (chunks : List Chunk) (window : Nat × Nat) :
    List Chunk :=
  let chunkText := (text.drop window.1).take (window.2 - window.1)
  if config.minChunkSize ≤ chunkText.length then
    chunks ++ [Chunk.new chunkText docId chunks.length (byteOffsetOfChar text window.1)]
  else chunks

def chunkDocument (text : List Char) (docId : Nat) (config : ChunkConfig) : List Chunk :=
  if text = [] then []
  else if text.length < config.minChunkSize then []
  else
    let step := max (config.chunkSize - config.overlap) 1
    (windows config.chunkSize step text.length (Nat.le_max_right _ _) 0).foldl (pushWindow text docId config) []

def joinWith (separator : List Char) (parts : List (List Char)) : List Char := separator.intercalate parts

structure ParagraphState where
  chunks : List Chunk
  byteCursor : Nat
  paraStart : Nat
  prevLineEmpty : Bool
  lineStart : Nat

/-- A paragraph that is not blank becomes a chunk at the cursor. -/
def ParagraphState.emit (docId : Nat) (para : List Char) (state : ParagraphState) : List Chunk :=
  if trim para = [] then state.chunks
  else state.chunks ++ [Chunk.new (trim para) docId state.chunks.length state.byteCursor]

/-- The end of a line at a newline, or at the end of the text. -/
def lineEnd (text : List Char) (docId i : Nat) (state : ParagraphState) : Option ParagraphState := do
  let line ← slice text state.lineStart i
  let isBlank := trim line = []
  let state ←
    if isBlank ∧ state.prevLineEmpty = false then do
      let para ← slice text state.paraStart state.lineStart
      let byteCursor := if trim para = [] then state.byteCursor else i
      some { state with chunks := state.emit docId para, byteCursor, paraStart := i + 1 }
    else if ¬ isBlank ∧ state.prevLineEmpty = true then some { state with paraStart := state.lineStart }
    else some state
  return { state with prevLineEmpty := isBlank, lineStart := i + 1 }

def paragraphLoop (text : List Char) (docId : Nat) : List UInt8 → Nat → ParagraphState → Option (List Chunk)
  | [], i, state => do
      let state ← lineEnd text docId i state
      let para ← sliceFrom text state.paraStart
      return state.emit docId para
  | byte :: bytes, i, state =>
      if byte = 10 then (lineEnd text docId i state).bind (paragraphLoop text docId bytes (i + 1))
      else paragraphLoop text docId bytes (i + 1) state

def chunkByParagraphs (text : List Char) (docId : Nat) : Option (List Chunk) :=
  if text = [] then some [] else paragraphLoop text docId (encode text) 0 ⟨[], 0, 0, false, 0⟩

end Pictor.Chunker

namespace Pictor.AdvancedChunker
open Chunker LineText Utf8

structure RichChunk where
  text : List Char
  charStart : Nat
  charEnd : Nat
  chunkIndex : Nat

structure RecursiveCharSplitter where
  maxChars : Nat
  overlap : Nat
  separators : List (List Char)

def RecursiveCharSplitter.defaultSeparators : List (List Char) := [['\n', '\n'], ['\n'], [' '], []]

def RecursiveCharSplitter.new (maxChars : Nat) : RecursiveCharSplitter :=
  ⟨maxChars, 0, RecursiveCharSplitter.defaultSeparators⟩

/-- The characters of a window of a text. -/
def window (text : List Char) (span : Nat × Nat) : List Char := (text.drop span.1).take (span.2 - span.1)

def splitByChars (text : List Char) (maxChars overlap : Nat) : List (List Char) :=
  let step := max (maxChars - overlap) 1
  (windows maxChars step text.length (Nat.le_max_right _ _) 0).map (window text)

/-- The parts of a text between the places of a separator, from left to right. -/
def splitParts (separator : List Char) : Nat → List Char → List (List Char)
  | 0, text => [text]
  | fuel + 1, text =>
      match TextSearch.split separator text with
      | none => [text]
      | some (before, after) => before :: splitParts separator fuel after

/-- The newest items of a group, given backwards, that fit in the overlap. -/
def overlapItems (separator : List Char) (overlap : Nat) : List (List Char) → Nat → List (List Char)
  | [], _ => []
  | item :: items, overlapLen =>
      let itemLen := item.length + separator.length
      if overlap < overlapLen + itemLen then []
      else item :: overlapItems separator overlap items (overlapLen + itemLen)

structure GroupState where
  result : List (List Char)
  currentGroup : List (List Char)
  currentLen : Nat

namespace RecursiveCharSplitter

variable (splitter : RecursiveCharSplitter) (separator : List Char) (recurse : List Char → List (List Char))

/-- The pieces of a finished group. -/
def groupPieces (group : List (List Char)) : List (List Char) :=
  let joined := joinWith separator group
  if splitter.maxChars < joined.length then recurse joined else [joined]

/-- A group that is full is finished, and its newest items are kept for the overlap. -/
def flush (state : GroupState) : GroupState :=
  let result := state.result ++ splitter.groupPieces separator recurse state.currentGroup
  if 0 < splitter.overlap then
    let group := (overlapItems separator splitter.overlap state.currentGroup.reverse 0).reverse
    let currentLen := (group.map List.length).sum +
      if 1 < group.length then (group.length - 1) * separator.length else 0
    ⟨result, group, currentLen⟩
  else ⟨result, [], 0⟩

def groupStep (state : GroupState) (part : List Char) : GroupState :=
  let sepLen := if state.currentGroup = [] then 0 else separator.length
  let state :=
    if splitter.maxChars < state.currentLen + sepLen + part.length ∧ state.currentGroup ≠ [] then
      splitter.flush separator recurse state
    else state
  if splitter.maxChars < part.length then
    -- The open group is pushed without a look at its size.
    let result := if state.currentGroup = [] then state.result
      else state.result ++ [joinWith separator state.currentGroup]
    let currentLen := if state.currentGroup = [] then state.currentLen else 0
    ⟨result ++ recurse part, [], currentLen⟩
  else
    let sepAdd := if state.currentGroup = [] then 0 else separator.length
    ⟨state.result, state.currentGroup ++ [part], state.currentLen + (sepAdd + part.length)⟩

def finish (state : GroupState) : List (List Char) :=
  if state.currentGroup = [] then state.result
  else state.result ++ splitter.groupPieces separator recurse state.currentGroup

def splitRecursive : List (List Char) → List Char → List (List Char)
  | separators, text =>
    if text.length ≤ splitter.maxChars then [text]
    else
      match separators with
      | [] => splitByChars text splitter.maxChars splitter.overlap
      | separator :: remaining =>
          if separator = [] then splitByChars text splitter.maxChars splitter.overlap
          else
            let parts := splitParts separator text.length text
            splitter.finish separator (splitRecursive remaining)
              (parts.foldl (splitter.groupStep separator (splitRecursive remaining)) ⟨[], [], 0⟩)
  termination_by structural separators => separators

end RecursiveCharSplitter

def findSubstringCharOffset (haystack needle : List Char) (start : Nat) : Option Nat :=
  if needle = [] then some start
  else if needle.length ≤ haystack.length then
    let limit := haystack.length - needle.length + 1
    (List.range' start (limit - start)).find? fun i => (haystack.drop i).take needle.length = needle
  else none

/-- One pass of the loop that places the pieces: each is searched from the end of the one before. -/
def placePiece (text : List Char) (state : List RichChunk × Nat) (piece : List Char) : List RichChunk × Nat :=
  if piece = [] then state
  else
    let start := (findSubstringCharOffset text piece state.2).getD state.2
    let stop := min (start + piece.length) text.length
    (state.1 ++ [⟨piece, start, stop, state.1.length⟩], start + piece.length)

def RecursiveCharSplitter.chunk (splitter : RecursiveCharSplitter) (text : List Char) : List RichChunk :=
  if text = [] then []
  else ((splitter.splitRecursive splitter.separators text).foldl (placePiece text) ([], 0)).1

end Pictor.AdvancedChunker
