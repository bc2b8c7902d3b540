/-
The zlib compressor and the checksum of chunks are parameters.
-/

import Pictor.Library.Slice

namespace Pictor.Png
open Slice LittleEndian

inductive PngError where
  | badLength (got expected : Nat)
  | zeroDimension (width height : Nat)
  | dimensionTooLarge (value : Nat)
  | compress (reason : String)

def pngSignature : List UInt8 := [0x89, 0x50, 0x4e, 0x47, 0x0d, 0x0a, 0x1a, 0x0a]

def ihdrType : List UInt8 := [0x49, 0x48, 0x44, 0x52]

def idatType : List UInt8 := [0x49, 0x44, 0x41, 0x54]

def iendType : List UInt8 := [0x49, 0x45, 0x4e, 0x44]

/-- A number wraps to 32 bits. -/
def toBeBytes (value : Nat) : List UInt8 := (leBytes 4 value).reverse

variable (zlibCompress : List UInt8 → Except String (List UInt8)) (crc32 : List UInt8 → UInt32)

/-- The bytes that are appended for a chunk. -/
def writeChunk (chunkType data : List UInt8) : List UInt8 :=
  toBeBytes data.length ++ chunkType ++ data ++ toBeBytes (crc32 (chunkType ++ data)).toNat

/-- Each row stands behind the filter type `None`. -/
def scanlines (height rowBytes : Nat) (rgb : List UInt8) : List UInt8 :=
  (List.range height).flatMap fun row => 0 :: slice rgb (row * rowBytes) rowBytes

def ihdrData (width height : Nat) : List UInt8 := toBeBytes width ++ toBeBytes height ++ [8, 2, 0, 0, 0]

def encodeRgb8 (width height : Nat) (rgb : List UInt8) : Except PngError (List UInt8) :=
  if width = 0 ∨ height = 0 then .error (.zeroDimension width height)
  else if 2 ^ 32 ≤ width then .error (.dimensionTooLarge width)
  else if 2 ^ 32 ≤ height then .error (.dimensionTooLarge height)
  else if 2 ^ 64 ≤ width * 3 then .error (.dimensionTooLarge width)
  else if 2 ^ 64 ≤ width * 3 * height then .error (.dimensionTooLarge height)
  else if rgb.length ≠ width * 3 * height then .error (.badLength rgb.length (width * 3 * height))
  else match zlibCompress (scanlines height (width * 3) rgb) with
    | .error reason => .error (.compress reason)
    | .ok idat => .ok (pngSignature ++ writeChunk crc32 ihdrType (ihdrData width height) ++
        writeChunk crc32 idatType idat ++ writeChunk crc32 iendType [])

end Pictor.Png
