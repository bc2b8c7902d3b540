import Pictor.Construction.Storage.Stores

namespace Pictor.Storage
open InsertAll LineText List

variable {escape : Char → List Char} {total : Nat} {text rest : List Char} {pairs : List (List Char × List Char)}
  {metadata : Metadata}

theorem parseJsonString_plain {c : Char} (quote : c ≠ '"') (slash : c ≠ '\\') (rest : List Char) :
    parseJsonString (c :: rest) = (fun read => (c :: read.1, read.2)) <$> parseJsonString rest := by
  rw [parseJsonString]
  · cases parseJsonString rest with
    | error message => rfl
    | ok read => rfl
  · exact quote
  · intro impossible
    exact absurd impossible slash
  · intro _ _ impossible
    exact absurd impossible slash

theorem parseJsonString_escape {c plain : Char} (known : unescape c = .ok plain) (rest : List Char) :
    parseJsonString ('\\' :: c :: rest) = (fun read => (plain :: read.1, read.2)) <$> parseJsonString rest := by
  rw [parseJsonString, known]
  cases parseJsonString rest with
  | error message => rfl
  | ok read => rfl

/-- The parser undoes the escape of each character. -/
def Undone (escape : Char → List Char) : Prop :=
  ∀ c rest, parseJsonString (escape c ++ rest) = (fun read => (c :: read.1, read.2)) <$> parseJsonString rest

theorem pushEscaped_undone : Undone pushEscaped := by
  intro c rest
  unfold pushEscaped
  split
  case h_1 => exact parseJsonString_escape rfl rest
  case h_2 => exact parseJsonString_escape rfl rest
  case h_3 quote slash => exact parseJsonString_plain quote slash rest

theorem jsonEscapeInto_undone : Undone jsonEscapeInto := by
  intro c rest
  unfold jsonEscapeInto
  split
  case h_1 => exact parseJsonString_escape rfl rest
  case h_2 => exact parseJsonString_escape rfl rest
  case h_3 => exact parseJsonString_escape rfl rest
  case h_4 => exact parseJsonString_escape rfl rest
  case h_5 => exact parseJsonString_escape rfl rest
  case h_6 quote slash _ _ _ => exact parseJsonString_plain quote slash rest

/-- An escaped string is read back up to its closing quote. -/
theorem parseJsonString_escaped (undone : Undone escape) (text rest : List Char) :
    parseJsonString (text.flatMap escape ++ '"' :: rest) = .ok (text, rest) := by
  induction text with
  | nil => rfl
  | cons c text ih =>
      rw [flatMap_cons, append_assoc, undone, ih]
      rfl

theorem parsePair_text (undone : Undone escape) (pair : List Char × List Char) (rest : List Char) :
    parsePair total '"' (((pairText escape pair).drop 1) ++ rest) = .ok (pair, rest) := by
  obtain ⟨key, value⟩ := pair
  have readKey := parseJsonString_escaped undone key (':' :: '"' :: (value.flatMap escape ++ '"' :: rest))
  have readValue := parseJsonString_escaped undone value rest
  have colon : skipWs (':' :: '"' :: (value.flatMap escape ++ '"' :: rest)) =
      ':' :: '"' :: (value.flatMap escape ++ '"' :: rest) := dropWhile_cons_of_neg (by decide)
  have quote : skipWs ('"' :: (value.flatMap escape ++ '"' :: rest)) =
      '"' :: (value.flatMap escape ++ '"' :: rest) := dropWhile_cons_of_neg (by decide)
  rw [parsePair, if_neg (fun differ => differ rfl), pairText, drop_one, tail_cons, append_assoc]
  simp only [cons_append, append_assoc, nil_append, readKey, bind, Except.bind, colon, quote, readValue]
  rfl

theorem parsePairs_text (undone : Undone escape) {lead : List Char} (separators : lead = [] ∨ lead = [','])
    (pair : List Char × List Char) (rest : List Char) :
    parsePairs total (lead ++ pairText escape pair ++ rest) = (pair :: ·) <$> parsePairs total rest := by
  have skipped : skipSeparators (lead ++ pairText escape pair ++ rest) =
      '"' :: (((pairText escape pair).drop 1) ++ rest) := by
    have quote : skipSeparators (pairText escape pair ++ rest) = pairText escape pair ++ rest :=
      dropWhile_cons_of_neg (by decide)
    rcases separators with rfl | rfl
    · exact quote
    · exact quote
  rw [parsePairs]
  split
  case h_1 nothing =>
    rw [skipped] at nothing
    cases nothing
  case h_2 first behind found =>
    rw [skipped, List.cons.injEq] at found
    obtain ⟨rfl, rfl⟩ := found
    split
    case h_1 message failed =>
      rw [parsePair_text undone] at failed
      cases failed
    case h_2 pair' behind' parsed =>
      rw [parsePair_text undone] at parsed
      cases parsed
      cases parsePairs total rest with
      | error message => rfl
      | ok pairs => rfl

theorem parsePairs_nil : parsePairs total [] = .ok [] := by
  rw [parsePairs]
  split
  case h_1 => rfl
  case h_2 found => cases found

/-- The pairs of a text are read back, also behind a comma. -/
theorem parsePairs_intercalate (undone : Undone escape) (nonempty : pairs ≠ []) {lead : List Char}
    (separators : lead = [] ∨ lead = [',']) :
    parsePairs total (lead ++ [','].intercalate (pairs.map (pairText escape))) = .ok pairs := by
  induction pairs generalizing lead with
  | nil => exact absurd rfl nonempty
  | cons pair pairs ih =>
      cases pairs with
      | nil =>
          rw [map_singleton, intercalate_singleton, ← append_nil (lead ++ _),
            parsePairs_text undone separators, parsePairs_nil]
          rfl
      | cons next pairs =>
          have later := ih (cons_ne_nil _ _) (.inr rfl)
          rw [map_cons, map_cons, intercalate_cons_cons, append_assoc, ← append_assoc lead,
            parsePairs_text undone separators]
          rw [map_cons] at later
          rw [later]
          rfl

/-- A text of an object is read back. -/
theorem parseObject_objectText (undone : Undone escape) (metadata : Metadata) :
    parseObject (objectText escape metadata) = .ok (insertAll (sortedPairs metadata) ∅) := by
  rw [objectText]
  generalize sortedPairs metadata = pairs
  generalize inside : [','].intercalate (pairs.map (pairText escape)) = inner
  have whole : trim ('{' :: (inner ++ ['}'])) = '{' :: (inner ++ ['}']) := by
    apply trim_eq
    · intro c head
      cases head
      decide
    · intro c last
      rw [← cons_append, getLast?_concat] at last
      cases last
      decide
  rw [parseObject]
  dsimp only
  rw [whole]
  cases pairs with
  | nil =>
      rw [← inside]
      rfl
  | cons pair pairs =>
      have starts : ∃ rest, inner = '"' :: rest := by
        rw [← inside]
        cases pairs with
        | nil => exact ⟨_, rfl⟩
        | cons next pairs => exact ⟨_, rfl⟩
      have drop : (('{' :: (inner ++ ['}'])).drop 1).dropLast = inner := dropLast_concat
      have last : ('{' :: (inner ++ ['}'])).getLast? = some '}' := by
        rw [← cons_append, getLast?_concat]
      obtain ⟨rest, start⟩ := starts
      have solid : trim inner ≠ [] := trim_ne_nil (by rw [start]; exact mem_cons_self) (by decide : isWhitespace '"' = false)
      have long : ¬('{' :: (inner ++ ['}']) = [] ∨ '{' :: (inner ++ ['}']) = ['{', '}']) := by
        rw [start]
        simp
      have read := @parsePairs_intercalate _ inner.length _ undone (cons_ne_nil pair pairs) [] (.inl rfl)
      rw [nil_append, inside] at read
      rw [if_neg long, if_neg (by rw [last]; simp), drop, if_neg solid, read]
      rfl

theorem sortedPairs_perm (metadata : Metadata) :
    (sortedPairs metadata).Perm (metadata.entries.map fun entry => (entry.1, entry.2)) := mergeSort_perm _ _

/-- The bytes of the keys and the values. -/
def Metadata.size (metadata : Metadata) : Nat :=
  (metadata.entries.map fun entry => Utf8.size entry.1 + Utf8.size entry.2).sum

def pairsSize (pairs : List (List Char × List Char)) : Nat :=
  (pairs.map fun pair => Utf8.size pair.1 + Utf8.size pair.2).sum

theorem size_parsePairs {chars : List Char} (parsed : parsePairs total chars = .ok pairs) :
    pairsSize pairs ≤ Utf8.size chars := by
  fun_induction parsePairs total chars generalizing pairs with
  | case1 =>
      cases parsed
      exact Nat.zero_le _
  | case2 => cases parsed
  | case3 chars first rest skipped pair behind first_pair ih =>
      obtain ⟨others, later, same⟩ := Outcome.bind_ok parsed
      cases same
      have shorter := ih later
      have pairSize := size_parsePair first_pair
      have lead : Utf8.size (skipSeparators chars) ≤ Utf8.size chars := Utf8.size_sublist (dropWhile_sublist _)
      rw [skipped, Utf8.size_cons] at lead
      rw [pairsSize, map_cons, sum_cons]
      change _ + pairsSize others ≤ _
      omega

theorem trim_sublist (text : List Char) : (trim text).Sublist text := by
  have inner : (trimStart (trimStart text).reverse).Sublist (trimStart text).reverse := dropWhile_sublist _
  have outer : (trimStart text).Sublist text := dropWhile_sublist _
  have reversed := inner.reverse
  rw [reverse_reverse] at reversed
  exact reversed.trans outer

/-- The metadata of a text take no more bytes than the text. -/
theorem size_parseObject (parsed : parseObject text = .ok metadata) : metadata.size ≤ Utf8.size text := by
  rw [parseObject] at parsed
  dsimp only at parsed
  split at parsed
  case isTrue =>
    cases parsed
    exact Nat.zero_le _
  case isFalse =>
    split at parsed
    case isTrue => cases parsed
    case isFalse =>
      split at parsed
      case isTrue =>
        cases parsed
        exact Nat.zero_le _
      case isFalse =>
        obtain ⟨pairs, read, same⟩ := Outcome.bind_ok parsed
        cases same
        have weight := weight_insertAll (fun key value => Utf8.size key + Utf8.size value) pairs ∅
        have inner := size_parsePairs read
        have part : (((trim text).drop 1).dropLast).Sublist text :=
          (dropLast_sublist _).trans ((drop_sublist _ _).trans (trim_sublist text))
        exact weight.trans (inner.trans (Utf8.size_sublist part))

end Pictor.Storage

namespace Pictor.Storage
open LittleEndian Reading List

variable {Error Head Item : Type}

/-- A file: a header with the number of items, the metadata text, and the items. -/
def fileReader (header : Reader Error (Head × Nat)) (texts : Reader Error (List Char))
    (parse : List Char → Except Error Metadata) (item : Reader Error Item) (width : Nat) :
    Reader Error (Head × Metadata × List Item) := do
  let (head, count) ← header
  let metaStr ← texts
  let metadata ← require (parse metaStr)
  let items ← reserving count width (many item count)
  return (head, metadata, items)

/-- The items are valid, and the metadata text fits its length. -/
structure FileParts (headParts : Head × Nat → List UInt8 → Prop) (parse : List Char → Except Error Metadata)
    (valid : Item → Prop) (encode : Item → List UInt8) (file : Head × Metadata × List Item) (part : List UInt8)
    (headPart : List UInt8) (metaStr : List Char) : Prop where
  head : headParts (file.1, file.2.2.length) headPart
  metaFits : Utf8.size metaStr < 2 ^ 32
  parsed : parse metaStr = .ok file.2.1
  items : ∀ item ∈ file.2.2, valid item
  whole : part = headPart ++ (textBytes metaStr ++ file.2.2.flatMap encode)

/-- The places of a file where room is reserved: behind the length of the metadata, behind the metadata for the items,
and inside an item. -/
inductive FileNeeds (headParts : Head × Nat → List UInt8 → Prop) (parse : List Char → Except Error Metadata)
    (valid : Item → Prop) (encode : Item → List UInt8) (itemNeeds : List UInt8 → Nat → Prop) (width : Nat) :
    List UInt8 → Nat → Prop
  | metadata {head : Head × Nat} {headPart : List UInt8} {len : Nat} :
      headParts head headPart → len < 2 ^ 32 →
      FileNeeds headParts parse valid encode itemNeeds width (headPart ++ leBytes 4 len) len
  | items {head : Head × Nat} {headPart : List UInt8} {metaStr : List Char} {metadata : Metadata} :
      headParts head headPart → Utf8.size metaStr < 2 ^ 32 → parse metaStr = .ok metadata →
      FileNeeds headParts parse valid encode itemNeeds width (headPart ++ textBytes metaStr) (head.2 * width)
  | item {head : Head × Nat} {headPart : List UInt8} {metaStr : List Char} {metadata : Metadata} {items : List Item}
      {before : List UInt8} {size : Nat} :
      headParts head headPart → Utf8.size metaStr < 2 ^ 32 → parse metaStr = .ok metadata →
      items.length < head.2 → (∀ item ∈ items, valid item) → itemNeeds before size →
      FileNeeds headParts parse valid encode itemNeeds width
        (headPart ++ (textBytes metaStr ++ (items.flatMap encode ++ before))) size

variable {header : Reader Error (Head × Nat)} {headParts : Head × Nat → List UInt8 → Prop}
  {short : Nat → Nat → Error} {broken : List UInt8 → Error} {parse : List Char → Except Error Metadata}
  {item : Reader Error Item} {valid : Item → Prop} {encode : Item → List UInt8} {itemNeeds : List UInt8 → Nat → Prop}
  {width : Nat}

/-- Items take at least their width each. -/
theorem width_le_flatMap (wide : ∀ item, valid item → width ≤ (encode item).length) (items : List Item)
    (good : ∀ item ∈ items, valid item) : items.length * width ≤ (items.flatMap encode).length := by
  induction items with
  | nil =>
      rw [length_nil, Nat.zero_mul]
      exact Nat.zero_le _
  | cons item items ih =>
      rw [forall_mem_cons] at good
      have here := wide item good.1
      have behind := ih good.2
      rw [length_cons, Nat.succ_mul, flatMap_cons, length_append]
      omega

theorem describes_file (headers : Describes header headParts fun _ _ => False)
    (describes : Describes item (fun item part => valid item ∧ part = encode item) itemNeeds)
    (wide : ∀ item, valid item → width ≤ (encode item).length) :
    Describes (fileReader header (text short broken) parse item width)
      (fun file part => ∃ headPart metaStr, FileParts headParts parse valid encode file part headPart metaStr)
      (FileNeeds headParts parse valid encode itemNeeds width) := by
  have items : ∀ count, Describes (reserving count width (many item count)) _ _ := fun count =>
    (describes_many describes count).reserving fun items part accepted => by
      rw [accepted.2, ← accepted.1.1]
      exact width_le_flatMap wide items accepted.1.2
  apply (headers.bind fun head _ _ => (describes_text short broken).bind fun metaStr _ _ =>
    (describes_require (parse metaStr)).bind fun metadata _ _ => (items head.2).bind fun items _ _ =>
      describes_pure (head.1, metadata, items)).congr
  · intro file part
    constructor
    · intro ⟨headPart, metaStr, accepted⟩
      obtain ⟨head, metadata, items⟩ := file
      obtain ⟨first, small, parsed, good, whole⟩ := accepted
      refine ⟨(head, items.length), headPart, _, first, ⟨metaStr, textBytes metaStr, _, ⟨small, rfl⟩, ?_, rfl⟩, whole⟩
      refine ⟨metadata, [], _, ⟨parsed, rfl⟩, ?_, rfl⟩
      exact ⟨items, _, [], ⟨⟨rfl, good⟩, rfl⟩, ⟨rfl, rfl⟩, (append_nil _).symm⟩
    · intro chain
      obtain ⟨head, headPart, _, first, ⟨metaStr, _, _, ⟨small, rfl⟩, ⟨metadata, _, _, ⟨parsed, rfl⟩,
        ⟨items, _, _, ⟨⟨full, good⟩, rfl⟩, ⟨rfl, rfl⟩, rfl⟩, rfl⟩, rfl⟩, whole⟩ := chain
      rw [append_nil, nil_append] at whole
      refine ⟨headPart, metaStr, ?_, small, parsed, good, whole⟩
      rw [full]
      exact first
  · intro before size
    constructor
    · intro needed
      cases needed with
      | metadata first small =>
          exact .inr ⟨_, _, _, first, .inl ⟨_, small, rfl, (Nat.mul_one _).symm⟩, rfl⟩
      | items first small parsed =>
          refine .inr ⟨_, _, _, first, .inr ⟨_, _, [], ⟨small, rfl⟩, .inr ?_, (append_nil _).symm⟩, rfl⟩
          exact ⟨_, [], [], ⟨parsed, rfl⟩, .inl (.inl ⟨rfl, rfl⟩), rfl⟩
      | item first small parsed fewer good needed =>
          refine .inr ⟨_, _, _, first, .inr ⟨_, _, _, ⟨small, rfl⟩, .inr ?_, rfl⟩, rfl⟩
          exact ⟨_, [], _, ⟨parsed, rfl⟩, .inl (.inr ⟨_, _, fewer, good, needed, rfl⟩), rfl⟩
    · intro chain
      rcases chain with impossible | ⟨head, headPart, _, first, later, rfl⟩
      · exact impossible.elim
      rcases later with ⟨len, small, rfl, rfl⟩ | ⟨metaStr, _, _, ⟨small, rfl⟩, later, rfl⟩
      · rw [Nat.mul_one]
        exact .metadata first small
      rcases later with impossible | ⟨metadata, _, _, ⟨parsed, rfl⟩, later, rfl⟩
      · exact impossible.elim
      rcases later with (⟨rfl, rfl⟩ | ⟨items, before', fewer, good, needed, rfl⟩) | ⟨_, _, _, _, impossible, _⟩
      · rw [append_nil]
        exact .items first small parsed
      · exact .item first small parsed fewer good needed
      · exact impossible.elim

/-- The contents of a file take no more bytes than the file. -/
theorem FileParts.size_le {file : Head × Metadata × List Item} {part headPart : List UInt8} {metaStr : List Char}
    (parts : FileParts headParts parse valid encode file part headPart metaStr)
    (sized : ∀ text metadata, parse text = .ok metadata → metadata.size ≤ Utf8.size text) :
    file.2.1.size + (file.2.2.map fun item => (encode item).length).sum ≤ part.length := by
  have metaSize := sized metaStr file.2.1 parts.parsed
  rw [parts.whole, textBytes]
  simp only [length_append, length_flatMap]
  rw [Utf8.size] at metaSize
  omega

theorem size_mapError {wrap : String → Error} {text : List Char} {metadata : Metadata}
    (parsed : (parseObject text).mapError wrap = .ok metadata) : metadata.size ≤ Utf8.size text := by
  cases read : parseObject text with
  | error message =>
      rw [read] at parsed
      cases parsed
  | ok other =>
      rw [read] at parsed
      cases parsed
      exact size_parseObject read

end Pictor.Storage
