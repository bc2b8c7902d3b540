import Pictor.Construction.Tokenizer.Serialization
import Pictor.Library.InsertAll

namespace Pictor.Serialization
open List

theorem lor_eq_add (high width : Nat) {low : Nat} (small : low < 2 ^ width) :
    high * 2 ^ width ||| low = high * 2 ^ width + low := by
  rw [← Nat.shiftLeft_eq, Nat.shiftLeft_add_eq_or_of_lt small]

/-- Bytes that are put together do not overlap. -/
theorem pack_bytes {b0 b1 b2 : Nat} (small1 : b1 < 256) (small2 : b2 < 256) :
    b0 <<< 16 ||| b1 <<< 8 ||| b2 = b0 * 65536 + b1 * 256 + b2 := by
  have second : b0 * 2 ^ 16 ||| b1 * 2 ^ 8 = (b0 * 256 + b1) * 2 ^ 8 := by
    rw [lor_eq_add b0 16 (show b1 * 2 ^ 8 < 2 ^ 16 by omega)]
    omega
  rw [Nat.shiftLeft_eq, Nat.shiftLeft_eq, second, lor_eq_add _ 8 (show b2 < 2 ^ 8 by omega)]
  omega

/-- Groups of six bits that are put together do not overlap. -/
theorem pack_sextets {v0 v1 v2 v3 : Nat} (small1 : v1 < 64) (small2 : v2 < 64) (small3 : v3 < 64) :
    v0 <<< 18 ||| v1 <<< 12 ||| v2 <<< 6 ||| v3 = v0 * 262144 + v1 * 4096 + v2 * 64 + v3 := by
  have second : v0 * 2 ^ 18 ||| v1 * 2 ^ 12 = (v0 * 64 + v1) * 2 ^ 12 := by
    rw [lor_eq_add v0 18 (show v1 * 2 ^ 12 < 2 ^ 18 by omega)]
    omega
  have third : (v0 * 64 + v1) * 2 ^ 12 ||| v2 * 2 ^ 6 = ((v0 * 64 + v1) * 64 + v2) * 2 ^ 6 := by
    rw [lor_eq_add _ 12 (show v2 * 2 ^ 6 < 2 ^ 12 by omega)]
    omega
  rw [Nat.shiftLeft_eq, Nat.shiftLeft_eq, Nat.shiftLeft_eq, second, third,
    lor_eq_add _ 6 (show v3 < 2 ^ 6 by omega)]
  omega

theorem sextet_eq (value : Nat) : value &&& 0x3f = value % 64 := Nat.and_two_pow_sub_one_eq_mod value 6

theorem octet_eq (value : Nat) : value &&& 0xff = value % 256 := Nat.and_two_pow_sub_one_eq_mod value 8

/-- A number of 24 bits is made of its groups of six bits. -/
theorem restore_sextets {value : Nat} (small : value < 16777216) :
    value / 262144 % 64 * 262144 + value / 4096 % 64 * 4096 + value / 64 % 64 * 64 + value % 64 = value := by
  have top : value / 262144 < 64 := by omega
  have first : value / 262144 = value / 4096 / 64 := by rw [Nat.div_div_eq_div_mul]
  have second : value / 4096 = value / 64 / 64 := by rw [Nat.div_div_eq_div_mul]
  rw [Nat.mod_eq_of_lt top, first, second]
  have part := Nat.div_add_mod (value / 64 / 64) 64
  have part' := Nat.div_add_mod (value / 64) 64
  have part'' := Nat.div_add_mod value 64
  omega

/-- The groups of six bits of a byte string. -/
def sextets : List UInt8 → List Nat
  | [] => []
  | [b0] => [b0.toNat * 65536 / 262144 % 64, b0.toNat * 65536 / 4096 % 64]
  | [b0, b1] =>
      let combined := b0.toNat * 65536 + b1.toNat * 256
      [combined / 262144 % 64, combined / 4096 % 64, combined / 64 % 64]
  | b0 :: b1 :: b2 :: rest =>
      let combined := b0.toNat * 65536 + b1.toNat * 256 + b2.toNat
      combined / 262144 % 64 :: combined / 4096 % 64 :: combined / 64 % 64 :: combined % 64 :: sextets rest

def padding : List UInt8 → List Char
  | [] => []
  | [_] => ['=', '=']
  | [_, _] => ['=']
  | _ :: _ :: _ :: rest => padding rest

theorem base64Encode_eq (bytes : List UInt8) :
    base64Encode bytes = (sextets bytes).map base64Char ++ padding bytes := by
  induction bytes using base64Encode.induct with
  | case1 => rfl
  | case2 b0 =>
      simp only [base64Encode, sextets, padding, Nat.shiftRight_eq_div_pow, Nat.shiftLeft_eq, sextet_eq]
      rfl
  | case3 b0 b1 =>
      have small := b1.toNat_lt
      have packed := @pack_bytes b0.toNat b1.toNat 0 small (by decide)
      rw [Nat.or_zero, Nat.add_zero] at packed
      simp only [base64Encode, sextets, padding, packed, Nat.shiftRight_eq_div_pow, sextet_eq]
      rfl
  | case4 b0 b1 b2 rest ih =>
      have packed := @pack_bytes b0.toNat b1.toNat b2.toNat b1.toNat_lt b2.toNat_lt
      simp only [base64Encode, sextets, padding, packed, Nat.shiftRight_eq_div_pow, sextet_eq, ih]
      rfl

theorem sextets_small (bytes : List UInt8) : ∀ value ∈ sextets bytes, value < 64 := by
  have small (value : Nat) : value % 64 < 64 := Nat.mod_lt _ (by decide)
  induction bytes using base64Encode.induct with
  | case1 =>
      intro value member
      cases member
  | case2 b0 =>
      simp only [sextets, forall_mem_cons]
      exact ⟨small _, small _, forall_mem_nil _⟩
  | case3 b0 b1 =>
      simp only [sextets, forall_mem_cons]
      exact ⟨small _, small _, small _, forall_mem_nil _⟩
  | case4 b0 b1 b2 rest ih =>
      simp only [sextets, forall_mem_cons]
      exact ⟨small _, small _, small _, small _, ih⟩

theorem padding_eq (bytes : List UInt8) : ∀ c ∈ padding bytes, c = '=' := by
  induction bytes using base64Encode.induct with
  | case1 =>
      intro c member
      cases member
  | case2 => simp [padding]
  | case3 => simp [padding]
  | case4 b0 b1 b2 rest ih => exact ih

/-- What the alphabet has for a group of six bits. -/
theorem base64Char_spec : ∀ value < 64,
    String.utf8EncodeChar (base64Char value) = [UInt8.ofNat (base64Char value).toNat] ∧
      decodeChar (UInt8.ofNat (base64Char value).toNat) = .ok value ∧ base64Char value ≠ '=' ∧
      isWhitespace (base64Char value) = false := by
  decide +kernel

/-- The bytes of the characters without the padding. -/
def sextetBytes (values : List Nat) : List UInt8 :=
  values.map fun value => UInt8.ofNat (base64Char value).toNat

theorem encode_base64Char (values : List Nat) (small : ∀ value ∈ values, value < 64) :
    Utf8.encode (values.map base64Char) = sextetBytes values := by
  induction values with
  | nil => rfl
  | cons value values ih =>
      rw [map_cons, Utf8.encode_cons, (base64Char_spec value (small value mem_cons_self)).1,
        ih fun other member => small other (mem_cons_of_mem _ member)]
      rfl

theorem rdropWhile_padding (values : List Nat) (small : ∀ value ∈ values, value < 64) (pad : List Char)
    (filled : ∀ c ∈ pad, c = '=') : (values.map base64Char ++ pad).rdropWhile (· = '=') = values.map base64Char := by
  induction pad using List.reverseRecOn with
  | nil =>
      rw [append_nil, rdropWhile_eq_self_iff]
      intro nonempty last
      have member := getLast_mem nonempty
      obtain ⟨value, inside, same⟩ := mem_map.mp member
      rw [← same] at last
      exact (base64Char_spec value (small value inside)).2.2.1 (of_decide_eq_true last)
  | append_singleton pad last ih =>
      have equal := filled last (mem_append_right _ mem_cons_self)
      have dropped := rdropWhile_concat_pos (fun c => decide (c = '=')) (values.map base64Char ++ pad)
        last (decide_eq_true equal)
      rw [← append_assoc, dropped]
      exact ih fun c member => filled c (mem_append_left _ member)

theorem decodeChunks_sextets (bytes : List UInt8) : decodeChunks (sextetBytes (sextets bytes)) = .ok bytes := by
  have read (value : Nat) (small : value < 64) := (base64Char_spec value small).2.1
  have below (value : Nat) : value % 64 < 64 := Nat.mod_lt _ (by decide)
  induction bytes using base64Encode.induct with
  | case1 => rfl
  | case2 b0 =>
      have small := b0.toNat_lt
      have packed := @pack_sextets (b0.toNat * 65536 / 262144 % 64) (b0.toNat * 65536 / 4096 % 64) 0 0
        (by omega) (by decide) (by decide)
      simp only [Nat.zero_shiftLeft, Nat.or_zero] at packed
      simp only [sextets, sextetBytes, map_cons, map_nil, decodeChunks]
      rw [read _ (by omega), read _ (by omega)]
      change Except.ok [UInt8.ofNat _] = _
      rw [packed, Nat.shiftRight_eq_div_pow, octet_eq]
      have same : (b0.toNat * 65536 / 262144 % 64 * 262144 + b0.toNat * 65536 / 4096 % 64 * 4096 +
          0 * 64 + 0) / 2 ^ 16 % 256 = b0.toNat := by omega
      rw [same, UInt8.ofNat_toNat]
  | case3 b0 b1 =>
      have small := b0.toNat_lt
      have small' := b1.toNat_lt
      simp only [sextets, sextetBytes, map_cons, map_nil, decodeChunks]
      generalize whole : b0.toNat * 65536 + b1.toNat * 256 = combined
      have packed := @pack_sextets (combined / 262144 % 64) (combined / 4096 % 64) (combined / 64 % 64) 0
        (below _) (below _) (by decide)
      have restored := @restore_sextets combined (by omega)
      have aligned : combined % 64 = 0 := by omega
      rw [aligned] at restored
      rw [Nat.or_zero, restored] at packed
      rw [read _ (below _), read _ (below _), read _ (below _)]
      simp only [bind, Except.bind, packed, Nat.shiftRight_eq_div_pow, octet_eq]
      have first : combined / 2 ^ 16 % 256 = b0.toNat := by omega
      have second : combined / 2 ^ 8 % 256 = b1.toNat := by omega
      rw [first, second, UInt8.ofNat_toNat, UInt8.ofNat_toNat]
      rfl
  | case4 b0 b1 b2 rest ih =>
      have small := b0.toNat_lt
      have small' := b1.toNat_lt
      have small'' := b2.toNat_lt
      simp only [sextets, sextetBytes, map_cons, decodeChunks]
      generalize whole : b0.toNat * 65536 + b1.toNat * 256 + b2.toNat = combined
      have packed := @pack_sextets (combined / 262144 % 64) (combined / 4096 % 64) (combined / 64 % 64)
        (combined % 64) (below _) (below _) (below _)
      rw [restore_sextets (by omega)] at packed
      rw [read _ (below _), read _ (below _), read _ (below _), read _ (below _)]
      change (decodeChunks (sextetBytes (sextets rest))).bind _ = _
      rw [ih]
      simp only [Except.bind, packed, Nat.shiftRight_eq_div_pow, octet_eq]
      have first : combined / 2 ^ 16 % 256 = b0.toNat := by omega
      have second : combined / 2 ^ 8 % 256 = b1.toNat := by omega
      have third : combined % 256 = b2.toNat := by omega
      rw [first, second, third, UInt8.ofNat_toNat, UInt8.ofNat_toNat, UInt8.ofNat_toNat]
      rfl

theorem base64Decode_encode (bytes : List UInt8) : base64Decode (base64Encode bytes) = .ok bytes := by
  rw [base64Decode, base64Encode_eq, rdropWhile_padding _ (sextets_small bytes) _ (padding_eq bytes),
    encode_base64Char _ (sextets_small bytes), decodeChunks_sextets]

end Pictor.Serialization

namespace Pictor.TokenizerState
open LineText Serialization List

theorem joinFields_two (first second : List Char) : joinFields [first, second] = first ++ ' ' :: second := rfl

theorem joinFields_three (first second third : List Char) :
    joinFields [first, second, third] = first ++ ' ' :: (second ++ ' ' :: third) := rfl

theorem joinFields_four (first second third fourth : List Char) : joinFields [first, second, third, fourth] =
      first ++ ' ' :: (second ++ ' ' :: (third ++ ' ' :: fourth)) := rfl

/-- The fields of the lines. -/
theorem tokenLine_eq (entry : UInt32 × List Char) : tokenLine entry =
    joinFields ["tok_id".toList, display entry.1, base64Encode (Utf8.encode entry.2)] := by
  have keyword : "tok_id ".toList = "tok_id".toList ++ [' '] := by decide
  delta tokenLine
  rw [keyword, joinFields_three]
  simp only [append_assoc, cons_append, nil_append]

theorem mergeLine_eq (merge : UInt32 × UInt32 × UInt32) : mergeLine merge =
    joinFields ["merge".toList, display merge.1, display merge.2.1, display merge.2.2] := by
  have keyword : "merge ".toList = "merge".toList ++ [' '] := by decide
  delta mergeLine
  rw [keyword, joinFields_four]
  simp only [append_assoc, cons_append, nil_append]

theorem specialLine_eq (entry : List Char × UInt32) : specialLine entry =
    joinFields ["special".toList, base64Encode (Utf8.encode entry.1), display entry.2] := by
  have keyword : "special ".toList = "special".toList ++ [' '] := by decide
  delta specialLine
  rw [keyword, joinFields_three]
  simp only [append_assoc, cons_append, nil_append]

theorem solid_display (id : UInt32) : Solid (display id) := solid_toDigits id.toNat

theorem display_ne_nil (id : UInt32) : display id ≠ [] := Nat.toDigits_ne_nil

theorem solid_base64 (bytes : List UInt8) : Solid (base64Encode bytes) := by
  rw [base64Encode_eq]
  intro c member
  rcases mem_append.mp member with coded | filled
  · obtain ⟨value, inside, rfl⟩ := mem_map.mp coded
    exact (base64Char_spec value (sextets_small bytes value inside)).2.2.2
  · rw [padding_eq bytes c filled]
    decide

theorem base64_ne_nil {token : List Char} (nonempty : token ≠ []) : base64Encode (Utf8.encode token) ≠ [] := by
  intro empty
  have read := base64Decode_encode (Utf8.encode token)
  rw [empty] at read
  have none : Utf8.encode token = Utf8.encode [] := (Except.ok.inj read).symm
  exact nonempty (Utf8.encode_injective none)

theorem parseId_display (lineNo : Nat) (what : List Char) (id : UInt32) :
    parseId lineNo what (display id) = .ok id := by
  have fits : id.toNat ≤ u32Max := Nat.le_of_lt_succ id.toNat_lt
  rw [parseId, display, parseUnsigned_toDigits fits]
  exact congrArg Except.ok UInt32.ofNat_toNat

theorem parseText_base64 (lineNo : Nat) (what text : List Char) :
    parseText lineNo what (base64Encode (Utf8.encode text)) = .ok text := by
  rw [parseText, base64Decode_encode]
  simp only [bind, Except.bind, Utf8.decode_encode]
  rfl

theorem parseTokenLine_tokenLine {entry : UInt32 × List Char} (nonempty : entry.2 ≠ []) (lineNo : Nat) :
    parseTokenLine (tokenLine entry) lineNo = .ok entry := by
  have trimmed := @trim_joinFields "tok_id".toList [display entry.1] (base64Encode (Utf8.encode entry.2))
    (by decide) (solid_base64 _) (by decide) (base64_ne_nil nonempty)
  have fields := splitn_joinFields ["tok_id".toList, display entry.1, base64Encode (Utf8.encode entry.2)]
    (by
      simp only [forall_mem_cons]
      exact ⟨by decide, solid_display _, solid_base64 _, forall_mem_nil _⟩) (cons_ne_nil _ _) 0
  rw [singleton_append] at trimmed
  rw [tokenLine_eq, parseTokenLine, trimmed]
  change splitn 3 _ = _ at fields
  rw [fields]
  simp only [ne_eq, not_true_eq_false, if_false, parseId_display, parseText_base64]
  rfl

/-- The line of the empty token loses its last field. -/
theorem parseTokenLine_empty (id : UInt32) (lineNo : Nat) :
    ∃ error, parseTokenLine (tokenLine (id, [])) lineNo = .error error := by
  have line : tokenLine (id, []) = joinFields ["tok_id".toList, display id] ++ [' '] := by
    rw [tokenLine_eq, Utf8.encode_nil, base64Encode]
    simp only [joinFields, append_assoc, cons_append]
  have whole := @trim_joinFields "tok_id".toList [] (display id) (by decide) (solid_display id) (by decide)
    (display_ne_nil id)
  have trimmed : trim (tokenLine (id, [])) = joinFields ["tok_id".toList, display id] := by
    rw [line]
    apply trim_concat
    · exact fun empty => absurd (append_eq_nil_iff.mp empty).1 (by decide)
    · intro c head
      have start : (joinFields ["tok_id".toList, display id]).head? = some 't' := rfl
      rw [start] at head
      cases head
      decide
    · intro c last
      have final : (joinFields ["tok_id".toList, display id]).getLast? = (display id).getLast? := by
        have ended : joinFields ["tok_id".toList, display id] =
            ("tok_id".toList ++ [' ']) ++ display id := by
          simp only [joinFields, append_assoc, cons_append, nil_append]
        rw [ended, getLast?_append_of_ne_nil _ (display_ne_nil id)]
      rw [final] at last
      exact solid_display id c (mem_of_getLast? last)
  have fields := splitn_joinFields ["tok_id".toList, display id]
    (by
      simp only [forall_mem_cons]
      exact ⟨by decide, solid_display _, forall_mem_nil _⟩) (cons_ne_nil _ _) 1
  change splitn 3 _ = _ at fields
  rw [parseTokenLine, trimmed, fields]
  exact ⟨_, rfl⟩

theorem parseMergeLine_mergeLine (merge : UInt32 × UInt32 × UInt32) (lineNo : Nat) :
    parseMergeLine (mergeLine merge) lineNo = .ok merge := by
  have trimmed := @trim_joinFields "merge".toList [display merge.1, display merge.2.1] (display merge.2.2)
    (by decide) (solid_display _) (by decide) (display_ne_nil _)
  have fields := splitn_joinFields
    ["merge".toList, display merge.1, display merge.2.1, display merge.2.2]
    (by
      simp only [forall_mem_cons]
      exact ⟨by decide, solid_display _, solid_display _, solid_display _, forall_mem_nil _⟩)
    (cons_ne_nil _ _) 0
  change splitn 4 _ = _ at fields
  change trim (joinFields [_, _, _, _]) = joinFields [_, _, _, _] at trimmed
  rw [mergeLine_eq, parseMergeLine, trimmed, fields]
  simp only [ne_eq, not_true_eq_false, if_false, parseId_display]
  rfl

theorem trim_specialLine (entry : List Char × UInt32) : trim (specialLine entry) = specialLine entry := by
  rw [specialLine_eq]
  exact @trim_joinFields "special".toList [base64Encode (Utf8.encode entry.1)] (display entry.2)
    (by decide) (solid_display _) (by decide) (display_ne_nil _)

theorem parseSpecialLine_specialLine (entry : List Char × UInt32) (lineNo : Nat) :
    parseSpecialLine (specialLine entry) lineNo = .ok entry := by
  have fields := splitn_joinFields
    ["special".toList, base64Encode (Utf8.encode entry.1), display entry.2]
    (by
      simp only [forall_mem_cons]
      exact ⟨by decide, solid_base64 _, solid_display _, forall_mem_nil _⟩) (cons_ne_nil _ _) 0
  change splitn 3 _ = _ at fields
  rw [specialLine_eq, parseSpecialLine, fields]
  simp only [ne_eq, not_true_eq_false, if_false, parseId_display, parseText_base64]
  rfl

theorem parseCountLine_count {keyword : List Char} (solid : Solid keyword) (nonempty : keyword ≠ [])
    {count : Nat} (fits : count ≤ usizeMax) (lineNo : Nat) :
    parseCountLine (keyword ++ ' ' :: Nat.toDigits 10 count) keyword lineNo = .ok count := by
  have trimmed := @trim_joinFields keyword [] (Nat.toDigits 10 count) solid (solid_toDigits count) nonempty
    Nat.toDigits_ne_nil
  have fields := splitn_joinFields [keyword, Nat.toDigits 10 count]
    (by
      simp only [forall_mem_cons]
      exact ⟨solid, solid_toDigits _, forall_mem_nil _⟩) (cons_ne_nil _ _) 0
  change splitn 2 _ = _ at fields
  change trim (joinFields [_, _]) = joinFields [_, _] at trimmed
  change parseCountLine (joinFields [keyword, Nat.toDigits 10 count]) keyword lineNo = _
  rw [parseCountLine, trimmed, fields]
  simp only [ne_eq, not_true_eq_false, if_false, parseUnsigned_toDigits fits]

end Pictor.TokenizerState

namespace Pictor.TokenizerState
open InsertAll LineText Serialization List

/-- The states have the same tokens, the same merges, and the same special tokens. -/
def Same (first second : TokenizerState) : Prop :=
  (∀ id, first.vocab.lookup id = second.vocab.lookup id) ∧ first.merges = second.merges ∧
    ∀ name, first.specialTokens.lookup name = second.specialTokens.lookup name

theorem nextLine_some (lineNo : Nat) (line : List Char) (rest : List (Option (List Char))) :
    nextLine lineNo (some line :: rest) = .ok (line, rest) := rfl

variable {entries : List (UInt32 × List Char)}

theorem readVocab_lines (distinct : (entries.map Prod.fst).Nodup) (nonempty : ∀ entry ∈ entries, entry.2 ≠ [])
    (lineNo : Nat) (rest : List (Option (List Char))) {vocab : AList fun _ : UInt32 => List Char}
    (fresh : ∀ entry ∈ entries, entry.1 ∉ vocab) :
    readVocab entries.length lineNo ((entries.map fun entry => some (tokenLine entry)) ++ rest) vocab =
      .ok (insertAll entries vocab, rest) := by
  induction entries generalizing lineNo vocab with
  | nil => rfl
  | cons entry entries ih =>
      rw [map_cons, nodup_cons] at distinct
      rw [forall_mem_cons] at nonempty fresh
      have later : ∀ other ∈ entries, other.1 ∉ vocab.insert entry.1 entry.2 := by
        intro other member
        rw [AList.mem_insert, not_or]
        refine ⟨fun same => distinct.1 ?_, fresh.2 other member⟩
        rw [← same]
        exact mem_map_of_mem member
      rw [map_cons, cons_append, length_cons, readVocab]
      simp only [nextLine_some, parseTokenLine_tokenLine nonempty.1, bind, Except.bind, if_neg fresh.1]
      exact ih distinct.2 nonempty.2 (lineNo + 1) later

/-- The line of an empty token stops the vocabulary. -/
theorem readVocab_empty {id : UInt32} (member : (id, []) ∈ entries) (lineNo : Nat) (rest : List (Option (List Char)))
    (vocab : AList fun _ : UInt32 => List Char) :
    ∃ error, readVocab entries.length lineNo ((entries.map fun entry => some (tokenLine entry)) ++ rest) vocab =
      .error error := by
  induction entries generalizing lineNo vocab with
  | nil => cases member
  | cons entry entries ih =>
      rw [map_cons, cons_append, length_cons, readVocab]
      simp only [nextLine_some, bind, Except.bind]
      by_cases empty : entry.2 = []
      · obtain ⟨entryId, token⟩ := entry
        change token = [] at empty
        subst empty
        obtain ⟨error, failed⟩ := parseTokenLine_empty entryId lineNo
        exact ⟨error, by rw [failed]⟩
      · have later : (id, []) ∈ entries := by
          rcases mem_cons.mp member with rfl | later
          · exact absurd rfl empty
          · exact later
        rw [parseTokenLine_tokenLine empty]
        by_cases seen : entry.1 ∈ vocab
        · simp only [if_pos seen]
          exact ⟨_, rfl⟩
        · simp only [if_neg seen]
          exact ih later (lineNo + 1) _

theorem readMerges_lines (entries : List (UInt32 × UInt32 × UInt32)) (lineNo : Nat)
    (rest : List (Option (List Char))) (merges : List (UInt32 × UInt32 × UInt32)) :
    readMerges entries.length lineNo ((entries.map fun merge => some (mergeLine merge)) ++ rest) merges =
      .ok (merges ++ entries, rest) := by
  induction entries generalizing lineNo merges with
  | nil => rw [append_nil]; rfl
  | cons merge entries ih =>
      rw [map_cons, cons_append, length_cons, readMerges]
      simp only [nextLine_some, parseMergeLine_mergeLine, bind, Except.bind, ih, append_assoc,
        singleton_append]

theorem specialLine_ne_nil (entry : List Char × UInt32) : specialLine entry ≠ [] := by
  rw [specialLine_eq, joinFields_three]
  exact fun empty => absurd (append_eq_nil_iff.mp empty).1 (by decide)

theorem readSpecials_lines (entries : List (List Char × UInt32)) (lineNo : Nat)
    (specials : AList fun _ : List Char => UInt32) :
    readSpecials lineNo (entries.map fun entry => some (specialLine entry)) specials =
      .ok (insertAll entries specials) := by
  induction entries generalizing lineNo specials with
  | nil => rfl
  | cons entry entries ih =>
      rw [map_cons, readSpecials]
      simp only [trim_specialLine, if_neg (specialLine_ne_nil entry), parseSpecialLine_specialLine, bind,
        Except.bind]
      exact ih (lineNo + 1) _

variable (state : TokenizerState)
include state

theorem vocabEntries_perm : state.vocabEntries.Perm (state.vocab.entries.map fun entry => (entry.1, entry.2)) :=
  perm_insertionSort _ _

theorem specialEntries_perm :
    state.specialEntries.Perm (state.specialTokens.entries.map fun entry => (entry.1, entry.2)) :=
  perm_insertionSort _ _

/-- There are no more tokens than ids. -/
theorem vocab_length_le : state.vocab.entries.length ≤ usizeMax := by
  have few : (state.vocab.keys.map UInt32.toNat).length ≤ 2 ^ 32 := by
    have distinct : (state.vocab.keys.map UInt32.toNat).Nodup :=
      state.vocab.keys_nodup.map fun _ _ same => UInt32.toNat_inj.mp same
    have inside : state.vocab.keys.map UInt32.toNat ⊆ List.range (2 ^ 32) := by
      intro value member
      obtain ⟨id, _, rfl⟩ := mem_map.mp member
      exact mem_range.mpr id.toNat_lt
    have bound := (subperm_of_subset distinct inside).length_le
    rwa [length_range] at bound
  rw [length_map] at few
  have same : state.vocab.keys.length = state.vocab.entries.length := length_map _
  rw [same] at few
  exact few.trans (by decide)

/-- The three lines before the vocabulary. -/
theorem saveLines_eq : state.saveLines = joinFields ["pictortokenizer".toList, "v1".toList] ::
      joinFields ["vocab_size".toList, Nat.toDigits 10 state.vocab.entries.length] ::
      joinFields ["merges".toList, Nat.toDigits 10 state.merges.length] ::
      (state.vocabEntries.map tokenLine ++ (state.merges.map mergeLine ++ state.specialEntries.map specialLine)) := by
  have magic : formatMagic = joinFields ["pictortokenizer".toList, "v1".toList] := by decide
  have vocabSize : "vocab_size ".toList = "vocab_size".toList ++ [' '] := by decide
  have merges : "merges ".toList = "merges".toList ++ [' '] := by decide
  delta saveLines
  rw [magic, vocabSize, merges]
  simp only [joinFields_two, append_assoc, cons_append, nil_append]

/-- No line has a line end inside. -/
theorem saveLines_oneLine : ∀ line ∈ state.saveLines, OneLine line := by
  rw [saveLines_eq]
  simp only [forall_mem_cons, forall_mem_append, forall_mem_map]
  refine ⟨?_, ?_, ?_, ?_, ?_, ?_⟩
  · apply oneLine_joinFields
    decide
  · apply oneLine_joinFields
    simp only [forall_mem_cons]
    exact ⟨by decide, solid_toDigits _, forall_mem_nil _⟩
  · apply oneLine_joinFields
    simp only [forall_mem_cons]
    exact ⟨by decide, solid_toDigits _, forall_mem_nil _⟩
  · intro entry _
    rw [tokenLine_eq]
    apply oneLine_joinFields
    simp only [forall_mem_cons]
    exact ⟨by decide, solid_display _, solid_base64 _, forall_mem_nil _⟩
  · intro merge _
    rw [mergeLine_eq]
    apply oneLine_joinFields
    simp only [forall_mem_cons]
    exact ⟨by decide, solid_display _, solid_display _, solid_display _, forall_mem_nil _⟩
  · intro entry _
    rw [specialLine_eq]
    apply oneLine_joinFields
    simp only [forall_mem_cons]
    exact ⟨by decide, solid_base64 _, solid_display _, forall_mem_nil _⟩

/-- The saved bytes are read up to the vocabulary. -/
theorem loadFrom_saveTo (addressable : state.merges.length ≤ usizeMax) : loadFrom (saveTo state) = (do
      let (vocab, rest) ← readVocab state.vocabEntries.length 4
        ((state.vocabEntries.map fun entry => some (tokenLine entry)) ++
          ((state.merges.map fun merge => some (mergeLine merge)) ++
            state.specialEntries.map fun entry => some (specialLine entry))) ∅
      let (merges, rest) ← readMerges state.merges.length (4 + state.vocabEntries.length) rest []
      let specialTokens ← readSpecials (4 + state.vocabEntries.length + state.merges.length) rest ∅
      return ⟨vocab, merges, specialTokens⟩) := by
  have size : state.vocab.entries.length = state.vocabEntries.length := by
    rw [state.vocabEntries_perm.length_eq, length_map]
  have magic : trim (joinFields ["pictortokenizer".toList, "v1".toList]) = formatMagic := by decide
  have vocabCount := parseCountLine_count (by decide : Solid "vocab_size".toList) (by decide)
    state.vocab_length_le 2
  have mergeCount := parseCountLine_count (by decide : Solid "merges".toList) (by decide) addressable 3
  rw [← joinFields_two] at vocabCount mergeCount
  rw [loadFrom, saveTo, lines_encode _ state.saveLines_oneLine, saveLines_eq]
  simp only [map_cons, map_append, map_map, nextLine_some, magic, vocabCount, mergeCount, bind,
    Except.bind, ne_eq, not_true_eq_false, if_false]
  rw [size]
  rfl

omit state

/-- A saved state is loaded again exactly if no token is empty. -/
theorem loadFrom_saveTo_iff (state : TokenizerState) (addressable : state.merges.length ≤ usizeMax) :
    (∃ loaded, loadFrom (saveTo state) = .ok loaded ∧ Same loaded state) ↔
      ∀ id token, state.vocab.lookup id = some token → token ≠ [] := by
  rw [loadFrom_saveTo state addressable]
  constructor
  · rintro ⟨loaded, read, _⟩ id token found rfl
    obtain ⟨error, failed⟩ := readVocab_empty ((mem_permuted state.vocabEntries_perm id []).mpr found) 4
      ((state.merges.map fun merge => some (mergeLine merge)) ++
        state.specialEntries.map fun entry => some (specialLine entry)) ∅
    rw [failed] at read
    cases read
  · intro nonempty
    have full : ∀ entry ∈ state.vocabEntries, entry.2 ≠ [] := fun entry member =>
      nonempty entry.1 entry.2 ((mem_permuted state.vocabEntries_perm entry.1 entry.2).mp member)
    rw [readVocab_lines (nodup_permuted state.vocabEntries_perm) full 4 _
      fun entry _ => AList.notMem_empty entry.1]
    simp only [bind, Except.bind, readMerges_lines, readSpecials_lines, nil_append]
    refine ⟨_, rfl, fun id => ?_, rfl, fun name => ?_⟩
    · exact lookup_insertAll_permuted state.vocabEntries_perm id
    · exact lookup_insertAll_permuted state.specialEntries_perm name

/-- A state with one word, one merge, and one special token is loaded again. -/
def oneWord : TokenizerState :=
  ⟨AList.singleton 7 ['é', '\n'], [(7, 7, 8)], AList.singleton [] 9⟩

theorem oneWord_loaded : ∃ loaded, loadFrom (saveTo oneWord) = .ok loaded ∧ Same loaded oneWord := by
  apply (loadFrom_saveTo_iff oneWord (by decide)).mpr
  intro id token found
  have member : (⟨id, token⟩ : Sigma fun _ : UInt32 => List Char) ∈ [⟨7, ['é', '\n']⟩] :=
    AList.mem_lookup_iff.mp found
  cases mem_singleton.mp member
  decide

/-- The line of the empty token ends in a space that is trimmed. -/
def emptyToken : TokenizerState := ⟨AList.singleton 5 [], [], ∅⟩

theorem emptyToken_rejected : ¬∃ loaded, loadFrom (saveTo emptyToken) = .ok loaded ∧ Same loaded emptyToken := by
  have rejected : (loadFrom (saveTo emptyToken)).isOk = false := by decide
  rintro ⟨loaded, read, _⟩
  rw [read] at rejected
  cases rejected

end Pictor.TokenizerState
