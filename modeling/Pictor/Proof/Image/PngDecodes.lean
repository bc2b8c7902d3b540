import Pictor.Construction.Image.Png
import Pictor.Library.RowMajor

namespace Pictor.Png
open Slice LittleEndian Tiling List

def ofBeBytes (bytes : List UInt8) : Nat := ofLeBytes bytes.reverse

/-- The types and the data of the chunks up to `IEND`, all with their checksums. The fuel bounds the number of chunks. -/
def walk (crc32 : List UInt8 → UInt32) : Nat → List UInt8 → Option (List (List UInt8 × List UInt8))
  | 0, _ => none
  | fuel + 1, bytes =>
      let length := ofBeBytes (slice bytes 0 4)
      let chunkType := slice bytes 4 4
      let data := slice bytes 8 length
      if bytes.length < 12 + length ∨ ofBeBytes (slice bytes (8 + length) 4) ≠ (crc32 (chunkType ++ data)).toNat then none
      else if chunkType = iendType then some [(chunkType, data)]
      else (walk crc32 fuel (bytes.drop (12 + length))).map ((chunkType, data) :: ·)

/-- Each row without its filter byte. -/
def unfilter (height rowBytes : Nat) (raw : List UInt8) : List UInt8 :=
  (List.range height).flatMap fun row => slice raw (row * (1 + rowBytes) + 1) rowBytes

/-- The bytes are chunks behind the signature: a first one with the dimensions, which a PNG image can have, and data that
inflate to the rows of the pixels. -/
def Decodes (inflate : List UInt8 → Option (List UInt8)) (crc32 : List UInt8 → UInt32) (width height : Nat)
    (rgb out : List UInt8) : Prop :=
  ∃ ihdr chunks raw, out.take 8 = pngSignature ∧
    walk crc32 out.length (out.drop 8) = some ((ihdrType, ihdr) :: chunks) ∧
    (ofBeBytes (slice ihdr 0 4) = width ∧ 1 ≤ width ∧ width < 2 ^ 31) ∧
    (ofBeBytes (slice ihdr 4 4) = height ∧ 1 ≤ height ∧ height < 2 ^ 31) ∧
    inflate ((chunks.filter fun chunk => chunk.1 = idatType).flatMap Prod.snd) = some raw ∧
    unfilter height (width * 3) raw = rgb

variable {crc32 : List UInt8 → UInt32}

theorem ofBeBytes_toBeBytes {value : Nat} (fits : value < 2 ^ 32) : ofBeBytes (toBeBytes value) = value := by
  rw [ofBeBytes, toBeBytes, reverse_reverse, ofLeBytes_leBytes (fits.trans_eq (by norm_num))]

theorem length_toBeBytes (value : Nat) : (toBeBytes value).length = 4 := by
  rw [toBeBytes, length_reverse, length_leBytes]

theorem slice_behind {front piece rest : List UInt8} {offset length : Nat} (start : front.length = offset)
    (size : piece.length = length) : slice (front ++ (piece ++ rest)) offset length = piece := by
  rw [slice, ← start, drop_left, ← size, take_left]

/-- A chunk whose length fits is read as it is. -/
theorem walk_writeChunk {chunkType data : List UInt8} (four : chunkType.length = 4) (fits : data.length < 2 ^ 32)
    (fuel : Nat) (rest : List UInt8) : walk crc32 (fuel + 1) (writeChunk crc32 chunkType data ++ rest) =
      if chunkType = iendType then some [(chunkType, data)]
      else (walk crc32 fuel rest).map ((chunkType, data) :: ·) := by
  have bytes : writeChunk crc32 chunkType data ++ rest = toBeBytes data.length ++ (chunkType ++ (data ++
      (toBeBytes (crc32 (chunkType ++ data)).toNat ++ rest))) := by
    simp only [writeChunk, append_assoc]
  have length : ofBeBytes (slice (writeChunk crc32 chunkType data ++ rest) 0 4) = data.length := by
    rw [bytes]
    exact (congrArg ofBeBytes (@slice_behind [] _ _ 0 4 rfl (length_toBeBytes _))).trans (ofBeBytes_toBeBytes fits)
  have kind : slice (writeChunk crc32 chunkType data ++ rest) 4 4 = chunkType := by
    rw [bytes, slice_behind (length_toBeBytes _) four]
  have content : slice (writeChunk crc32 chunkType data ++ rest) 8 data.length = data := by
    rw [bytes, ← append_assoc, slice_behind (by rw [length_append, length_toBeBytes, four]) rfl]
  have checksum : slice (writeChunk crc32 chunkType data ++ rest) (8 + data.length) 4 =
      toBeBytes (crc32 (chunkType ++ data)).toNat := by
    rw [bytes, ← append_assoc, ← append_assoc, slice_behind (by simp only [length_append, length_toBeBytes, four])
      (length_toBeBytes _)]
  have size : (writeChunk crc32 chunkType data).length = 12 + data.length := by
    simp only [writeChunk, length_append, length_toBeBytes, four]
    omega
  rw [walk, length, kind, content, checksum, ofBeBytes_toBeBytes (UInt32.toNat_lt _), ← size, drop_left, if_neg]
  rw [length_append]
  omega

/-- The rows of the scanlines without their filter bytes are the pixels. -/
theorem unfilter_scanlines {height rowBytes : Nat} {rgb : List UInt8} (full : rgb.length = rowBytes * height) :
    unfilter height rowBytes (scanlines height rowBytes rgb) = rgb := by
  have even : ∀ row ∈ (List.range height).map fun row => 0 :: slice rgb (row * rowBytes) rowBytes,
      row.length = 1 + rowBytes := by
    intro row member
    obtain ⟨place, below, rfl⟩ := mem_map.mp member
    have room := Nat.mul_le_mul_right rowBytes (Nat.succ_le_of_lt (mem_range.mp below))
    rw [Nat.succ_mul, Nat.mul_comm height, ← full] at room
    rw [length_cons, slice, length_take, length_drop]
    omega
  have rows : ∀ row ∈ List.range height,
      slice (scanlines height rowBytes rgb) (row * (1 + rowBytes) + 1) rowBytes = slice rgb (row * rowBytes) rowBytes := by
    intro row member
    have inside := mem_range.mp member
    rw [scanlines, flatMap_def, ← slice_slice (Nat.le_refl (1 + rowBytes)), RowMajor.slice_flatten even (by simpa),
      getElem_map, getElem_range]
    rw [slice, drop_one, tail_cons, take_of_length_le]
    rw [slice, length_take]
    exact min_le_left _ _
  rw [unfilter, flatMap_def, map_congr_left rows, flatten_slices, take_of_length_le (by rw [full, Nat.mul_comm])]

variable {zlibCompress : List UInt8 → Except String (List UInt8)} {inflate : List UInt8 → Option (List UInt8)}
  {width height : Nat} {rgb out : List UInt8}

/-- The parts of an image that is accepted. -/
theorem encodeRgb8_ok (accepted : encodeRgb8 zlibCompress crc32 width height rgb = .ok out) :
    (width ≠ 0 ∧ height ≠ 0 ∧ width < 2 ^ 32 ∧ height < 2 ^ 32 ∧ rgb.length = width * 3 * height) ∧
      ∃ idat, zlibCompress (scanlines height (width * 3) rgb) = .ok idat ∧
        out = pngSignature ++ (writeChunk crc32 ihdrType (ihdrData width height) ++
          (writeChunk crc32 idatType idat ++ (writeChunk crc32 iendType [] ++ []))) := by
  rw [encodeRgb8] at accepted
  split at accepted
  · cases accepted
  · rename_i some
    split at accepted
    · cases accepted
    · rename_i wide
      split at accepted
      · cases accepted
      · rename_i high
        split at accepted
        · cases accepted
        · split at accepted
          · cases accepted
          · split at accepted
            · cases accepted
            · rename_i full
              split at accepted
              · cases accepted
              · rename_i idat compressed
                cases accepted
                refine ⟨⟨(not_or.mp some).1, (not_or.mp some).2, not_le.mp wide, not_le.mp high, not_not.mp full⟩,
                  idat, compressed, ?_⟩
                simp only [append_assoc, append_nil]

/-- An image that is accepted decodes only if its dimensions are below the limit of PNG, and then it does if the length of
its compressed rows fits its field. -/
theorem encoded_decodes (inverse : ∀ raw idat, zlibCompress raw = .ok idat → inflate idat = some raw)
    (accepted : encodeRgb8 zlibCompress crc32 width height rgb = .ok out) :
    (Decodes inflate crc32 width height rgb out → width < 2 ^ 31 ∧ height < 2 ^ 31) ∧
      ((∀ idat, zlibCompress (scanlines height (width * 3) rgb) = .ok idat → idat.length < 2 ^ 32) →
        width < 2 ^ 31 ∧ height < 2 ^ 31 → Decodes inflate crc32 width height rgb out) := by
  constructor
  · rintro ⟨_, _, _, _, _, ⟨_, _, wide⟩, ⟨_, _, high⟩, _⟩
    exact ⟨wide, high⟩
  · intro short ⟨wide, high⟩
    obtain ⟨⟨some, some', fits, fits', full⟩, idat, compressed, rfl⟩ := encodeRgb8_ok accepted
    have walked (fuel : Nat) : walk crc32 (fuel + 3) (writeChunk crc32 ihdrType
        (ihdrData width height) ++ (writeChunk crc32 idatType idat ++ (writeChunk crc32 iendType [] ++ []))) =
        Option.some [(ihdrType, ihdrData width height), (idatType, idat), (iendType, [])] := by
      have dimensions : (ihdrData width height).length < 2 ^ 32 := by
        simp only [ihdrData, length_append, length_toBeBytes, length_cons, length_nil]
        decide
      rw [walk_writeChunk rfl dimensions, if_neg (by decide), walk_writeChunk rfl (short idat compressed),
        if_neg (by decide), walk_writeChunk rfl (by decide), if_pos rfl]
      rfl
    refine ⟨ihdrData width height, [(idatType, idat), (iendType, [])],
      scanlines height (width * 3) rgb, rfl, walked _, ⟨?_, Nat.pos_of_ne_zero some, wide⟩,
      ⟨?_, Nat.pos_of_ne_zero some', high⟩, ?_, unfilter_scanlines full⟩
    · rw [ihdrData, append_assoc]
      exact (congrArg ofBeBytes (@slice_behind [] _ _ 0 4 rfl (length_toBeBytes _))).trans (ofBeBytes_toBeBytes fits)
    · rw [ihdrData, append_assoc, slice_behind (length_toBeBytes _) (length_toBeBytes _), ofBeBytes_toBeBytes fits']
    · exact inverse _ _ (by simpa [idatType, iendType] using compressed)

/-- The checksum of zlib. -/
def crcOf (bytes : List UInt8) : UInt32 :=
  ~~~bytes.foldl (fun crc byte => (List.range 8).foldl (fun crc _ =>
    if crc &&& 1 = 1 then (crc >>> 1) ^^^ 0xedb88320 else crc >>> 1) (crc ^^^ byte.toUInt32)) 0xffffffff

/-- A red pixel and its compressed row. -/
def redRow : List UInt8 × List UInt8 :=
  ([0, 255, 0, 0], [0x78, 0xda, 0x63, 0xf8, 0xcf, 0xc0, 0x00, 0x00, 0x03, 0x01, 0x01, 0x00])

theorem encoded_decodes_red : ∃ out, Decodes (fun idat => if idat = redRow.2 then some redRow.1 else none) crcOf 1 1
    [255, 0, 0] out := by
  refine ⟨_, (@encoded_decodes crcOf (fun raw => if raw = redRow.1 then .ok redRow.2 else .error "") _ 1 1 [255, 0, 0] _
    (fun raw idat compressed => ?_) rfl).2 (fun idat compressed => ?_) (by decide)⟩
  · split at compressed
    · rename_i same
      cases compressed
      rw [same]
      rfl
    · cases compressed
  · cases compressed
    decide

/-- A row of 2^31 pixels is accepted, and its dimensions are none of a PNG image. -/
theorem wide_undecodable : ∃ out, encodeRgb8 .ok crcOf (2 ^ 31) 1 (List.replicate (2 ^ 31 * 3 * 1) 0) = .ok out ∧
    ¬Decodes some crcOf (2 ^ 31) 1 (List.replicate (2 ^ 31 * 3 * 1) 0) out := by
  have accepted : ∃ out, encodeRgb8 .ok crcOf (2 ^ 31) 1 (List.replicate (2 ^ 31 * 3 * 1) 0) = .ok out := by
    rw [encodeRgb8, if_neg (by decide), if_neg (by decide), if_neg (by decide), if_neg (by decide), if_neg (by decide),
      if_neg (not_not.mpr length_replicate)]
    exact ⟨_, rfl⟩
  obtain ⟨out, accepted⟩ := accepted
  refine ⟨out, accepted, ?_⟩
  rintro ⟨_, _, _, _, _, ⟨_, _, wide⟩, _⟩
  exact absurd wide (by decide)

end Pictor.Png
