/-
A float is its bits.
-/

import Pictor.Library.Appending
import Pictor.Library.InsertAll
import Pictor.Library.LineText
import Pictor.Library.Reading

namespace Pictor.Storage
open InsertAll LineText

abbrev Metadata := AList fun _ : List Char => List Char

/-- The writers differ in the characters that they escape. -/
def pairText (escape : Char → List Char) (pair : List Char × List Char) : List Char :=
  '"' :: (pair.1.flatMap escape ++ '"' :: ':' :: '"' :: (pair.2.flatMap escape ++ ['"']))

/-- The pairs in the order of their keys. -/
def sortedPairs (metadata : Metadata) : List (List Char × List Char) :=
  (metadata.entries.map fun entry => (entry.1, entry.2)).mergeSort fun a b => a.1 ≤ b.1

def objectText (escape : Char → List Char) (metadata : Metadata) : List Char :=
  '{' :: ([','].intercalate ((sortedPairs metadata).map (pairText escape)) ++ ['}'])

def unescape (c : Char) : Except String Char :=
  match c with
  | '"' => .ok '"'
  | '\\' => .ok '\\'
  | 'n' => .ok '\n'
  | 'r' => .ok '\r'
  | 't' => .ok '\t'
  | other => .error ("unknown escape '\\" ++ other.toString ++ "'")

/-- The string up to its closing quote, and what stands behind it. -/
def parseJsonString : List Char → Except String (List Char × List Char)
  | [] => .error "unterminated string"
  | '"' :: rest => .ok ([], rest)
  | ['\\'] => .error "unexpected end after backslash"
  | '\\' :: c :: rest => do
      let plain ← unescape c
      let (text, rest) ← parseJsonString rest
      return (plain :: text, rest)
  | c :: rest => do
      let (text, rest) ← parseJsonString rest
      return (c :: text, rest)

def skipWs (chars : List Char) : List Char := chars.dropWhile isWhitespace

def skipSeparators (chars : List Char) : List Char := chars.dropWhile fun c => c = ',' || isWhitespace c

/-- A string and what stands behind it take fewer bytes than the text. -/
theorem size_parseJsonString {chars text rest : List Char} (parsed : parseJsonString chars = .ok (text, rest)) :
    Utf8.size text + Utf8.size rest < Utf8.size chars := by
  fun_induction parseJsonString chars generalizing text rest with
  | case1 => cases parsed
  | case2 behind =>
      cases parsed
      rw [Utf8.size_nil, Utf8.size_cons]
      have quote := Char.utf8Size_pos '"'
      omega
  | case3 => cases parsed
  | case4 c behind ih =>
      obtain ⟨plain, known, parsed⟩ := Outcome.bind_ok parsed
      obtain ⟨⟨text', rest'⟩, inner, parsed⟩ := Outcome.bind_ok parsed
      cases parsed
      have shorter := ih inner
      have one : plain.utf8Size = 1 := by
        unfold unescape at known
        split at known <;> cases known <;> rfl
      have slash := Char.utf8Size_pos '\\'
      have letter := Char.utf8Size_pos c
      rw [Utf8.size_cons, Utf8.size_cons, Utf8.size_cons, one]
      omega
  | case5 c behind _ _ _ ih =>
      obtain ⟨⟨text', rest'⟩, inner, parsed⟩ := Outcome.bind_ok parsed
      cases parsed
      have shorter := ih inner
      rw [Utf8.size_cons, Utf8.size_cons]
      omega

/-- A pair and what stands behind it. The total number of characters gives the positions in errors. -/
def parsePair (total : Nat) (first : Char) (rest : List Char) :
    Except String ((List Char × List Char) × List Char) := do
  if first ≠ '"' then
    throw ("expected '\"' at position " ++ toString (total - (rest.length + 1)) ++ ", got '" ++ first.toString ++ "'")
  else do
    let (key, behindKey) ← parseJsonString rest
    match skipWs behindKey with
    | ':' :: behindColon =>
        match skipWs behindColon with
        | '"' :: behindQuote => do
            let (value, behind) ← parseJsonString behindQuote
            return ((key, value), behind)
        | _ => throw ("expected '\"' for value of key '" ++ String.ofList key ++ "'")
    | _ => throw ("expected ':' after key '" ++ String.ofList key ++ "'")

/-- A pair and what stands behind it take fewer bytes than the text. -/
theorem size_parsePair {total : Nat} {first : Char} {rest behind key value : List Char}
    (parsed : parsePair total first rest = .ok ((key, value), behind)) :
    Utf8.size key + Utf8.size value + Utf8.size behind < Utf8.size rest := by
  rw [parsePair] at parsed
  split at parsed
  case isTrue => cases parsed
  case isFalse =>
    obtain ⟨⟨key', behindKey⟩, readKey, parsed⟩ := Outcome.bind_ok parsed
    dsimp only at parsed
    split at parsed
    case h_1 behindColon atColon =>
      split at parsed
      case h_1 behindQuote atQuote =>
        obtain ⟨⟨value', behind'⟩, readValue, parsed⟩ := Outcome.bind_ok parsed
        cases parsed
        change _ + Utf8.size value' + Utf8.size behind' < _
        have first := size_parseJsonString readKey
        have second := size_parseJsonString readValue
        have colon : Utf8.size (skipWs behindKey) ≤ Utf8.size behindKey := Utf8.size_sublist (List.dropWhile_sublist _)
        have quote : Utf8.size (skipWs behindColon) ≤ Utf8.size behindColon :=
          Utf8.size_sublist (List.dropWhile_sublist _)
        rw [atColon, Utf8.size_cons] at colon
        rw [atQuote, Utf8.size_cons] at quote
        omega
      case h_2 => cases parsed
    case h_2 => cases parsed

/-- The pairs between commas and spaces. -/
def parsePairs (total : Nat) (chars : List Char) : Except String (List (List Char × List Char)) :=
  match _found : skipSeparators chars with
  | [] => .ok []
  | first :: rest =>
      match _parsed : parsePair total first rest with
      | .error message => .error message
      | .ok (pair, behind) => do
          let pairs ← parsePairs total behind
          return pair :: pairs
termination_by Utf8.size chars
decreasing_by
  have shorter := size_parsePair _parsed
  have skipped : Utf8.size (skipSeparators chars) ≤ Utf8.size chars := Utf8.size_sublist (List.dropWhile_sublist _)
  rw [_found, Utf8.size_cons] at skipped
  omega

/-- The empty text is an object without pairs. A pair that comes later replaces the value of its key. -/
def parseObject (text : List Char) : Except String Metadata :=
  let trimmed := trim text
  if trimmed = [] ∨ trimmed = ['{', '}'] then .ok ∅
  else if trimmed.head? ≠ some '{' ∨ trimmed.getLast? ≠ some '}' then
    .error ("expected JSON object, got: " ++ String.ofList trimmed)
  else
    let inner := (trimmed.drop 1).dropLast
    if trim inner = [] then .ok ∅ else do
      let pairs ← parsePairs inner.length inner
      return insertAll pairs ∅

end Pictor.Storage

namespace Pictor.Storage
open Appending LittleEndian Reading

inductive CheckpointError where
  | invalidMagic (magic : List UInt8)
  | unsupportedVersion (version : UInt32)
  | metadataParse (message : String)
  /-- The parse error of a text that is not UTF-8. -/
  | notUtf8 (bytes : List UInt8)
  | truncatedData (expected got : Nat)
  | nameTooLong (length : Nat)
  deriving DecidableEq

structure CheckpointTensor where
  name : List Char
  shape : List UInt64
  data : List UInt32
  deriving DecidableEq

structure Checkpoint where
  version : UInt32
  metadata : Metadata
  tensors : List CheckpointTensor

def pushEscaped (c : Char) : List Char :=
  match c with
  | '"' => ['\\', '"']
  | '\\' => ['\\', '\\']
  | other => [other]

def serializeMetadata (metadata : Metadata) : List Char := objectText pushEscaped metadata

def deserializeMetadata (text : List Char) : Except CheckpointError Metadata :=
  (parseObject text).mapError .metadataParse

def checkpointMagic : List UInt8 := [79, 88, 67, 75]

namespace CheckpointTensor

/-- The name, the shape and the data, each behind its length. -/
def writeTo (tensor : CheckpointTensor) : Append CheckpointError UInt8 Unit := do
  let nameBytes := Utf8.encode tensor.name
  if nameBytes.length > 65535 then throw (.nameTooLong nameBytes.length)
  else do
    writeAll (leBytes 4 nameBytes.length)
    writeAll nameBytes
    writeAll (leBytes 4 tensor.shape.length)
    tensor.shape.forM fun dim => writeAll (leBytes 8 dim.toNat)
    writeAll (leBytes 8 tensor.data.length)
    tensor.data.forM fun bits => writeAll (leBytes 4 bits.toNat)

end CheckpointTensor

/-- The bytes of the format, which are written from the start to the end. -/
def Checkpoint.writeTo (checkpoint : Checkpoint) : Append CheckpointError UInt8 Unit := do
  writeAll checkpointMagic
  writeAll (leBytes 4 1)
  writeAll (leBytes 8 0)
  writeAll (leBytes 8 checkpoint.tensors.length)
  let metaBytes := Utf8.encode (serializeMetadata checkpoint.metadata)
  writeAll (leBytes 4 metaBytes.length)
  writeAll metaBytes
  checkpoint.tensors.forM CheckpointTensor.writeTo

namespace Checkpoint

abbrev Reading := Reader CheckpointError

def readText : Reading (List Char) := text .truncatedData .notUtf8

/-- The fewest bytes of a tensor: the lengths of its name, its shape and its data. -/
def minTensorBytes : Nat := 16

def readTensor : Reading CheckpointTensor := do
  let name ← readText
  let shape ← len32 .truncatedData >>= fun ndim => reserving ndim 8 (many (u64 .truncatedData) ndim)
  let data ← len64 .truncatedData >>= fun dataLen => reserving dataLen 4 (many (u32 .truncatedData) dataLen)
  return ⟨name, shape, data⟩

/-- The version and the number of tensors. The flags are ignored. -/
def readHeader : Reading (UInt32 × Nat) := do
  let magic ← readExact (CheckpointError.truncatedData 4) 4
  require (if magic = checkpointMagic then .ok () else .error (.invalidMagic magic))
  let version ← u32 .truncatedData
  require (if version = 0 ∨ version > 1 then .error (.unsupportedVersion version) else .ok ())
  let _flags ← u64 .truncatedData
  let numTensors ← len64 .truncatedData
  return (version, numTensors)

def readFrom : Reading Checkpoint := do
  let (version, numTensors) ← readHeader
  let metaStr ← readText
  let metadata ← require (deserializeMetadata metaStr)
  let tensors ← reserving numTensors minTensorBytes (many readTensor numTensors)
  return ⟨version, metadata, tensors⟩

end Checkpoint

end Pictor.Storage

namespace Pictor.Storage
open Appending LittleEndian Reading

inductive DiskCacheError where
  | io
  | invalidMagic
  | unsupportedVersion (version : UInt32)
  | metadataParse (message : String)
  /-- The parse error of a text that is not UTF-8. -/
  | notUtf8 (bytes : List UInt8)
  deriving DecidableEq

structure CacheEntry where
  name : List Char
  data : List UInt8
  quantType : List Char
  deriving DecidableEq

structure DiskCache where
  entries : List CacheEntry
  metadata : Metadata

def jsonEscapeInto (c : Char) : List Char :=
  match c with
  | '"' => ['\\', '"']
  | '\\' => ['\\', '\\']
  | '\n' => ['\\', 'n']
  | '\r' => ['\\', 'r']
  | '\t' => ['\\', 't']
  | other => [other]

def metadataToJson (metadata : Metadata) : List Char := objectText jsonEscapeInto metadata

def metadataFromJson (text : List Char) : Except DiskCacheError Metadata :=
  (parseObject text).mapError .metadataParse

def cacheMagic : List UInt8 := [79, 88, 67, 65]

def cacheVersion : UInt32 := 1

/-- The name, the type and the data, each behind its length. -/
def CacheEntry.writeTo (entry : CacheEntry) : Append DiskCacheError UInt8 Unit := do
  let nameBytes := Utf8.encode entry.name
  writeAll (leBytes 4 nameBytes.length)
  writeAll nameBytes
  let qtBytes := Utf8.encode entry.quantType
  writeAll (leBytes 4 qtBytes.length)
  writeAll qtBytes
  writeAll (leBytes 8 entry.data.length)
  writeAll entry.data

namespace DiskCache

def writeTo (cache : DiskCache) : Append DiskCacheError UInt8 Unit := do
  writeAll cacheMagic
  writeAll (leBytes 4 cacheVersion.toNat)
  writeAll (leBytes 8 cache.entries.length)
  let metaBytes := Utf8.encode (metadataToJson cache.metadata)
  writeAll (leBytes 4 metaBytes.length)
  writeAll metaBytes
  cache.entries.forM CacheEntry.writeTo

abbrev Reading := Reader DiskCacheError

/-- Each read that ends too early fails with the same error. -/
def short (_expected _got : Nat) : DiskCacheError := .io

def readText : Reading (List Char) := text short .notUtf8

/-- The fewest bytes of an entry: the lengths of its name, its type and its data. -/
def minEntryBytes : Nat := 16

def readEntry : Reading CacheEntry := do
  let name ← readText
  let quantType ← readText
  let data ← len64 short >>= vec short
  return ⟨name, data, quantType⟩

/-- The version and the number of entries. -/
def readHeader : Reading (UInt32 × Nat) := do
  let magic ← readExact (short 4) 4
  require (if magic = cacheMagic then .ok () else .error .invalidMagic)
  let version ← u32 short
  require (if version = cacheVersion then .ok () else .error (.unsupportedVersion version))
  let numEntries ← len64 short
  return (version, numEntries)

def readFrom : Reading DiskCache := do
  let (_version, numEntries) ← readHeader
  let metaStr ← readText
  let metadata ← require (metadataFromJson metaStr)
  let entries ← reserving numEntries minEntryBytes (many readEntry numEntries)
  return ⟨entries, metadata⟩

end DiskCache

end Pictor.Storage
