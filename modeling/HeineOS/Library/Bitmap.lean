import HeineOS.Lib.Chunks
import Mathlib.Tactic.Ring

/-! The loader for BMP images: a header that is laid over the first bytes, and the rows of pixels behind it. -/
namespace HeineOS
open Lib

structure BitmapInfoHeader where
  headerSize : Nat
  width : Int
  height : Int
  colorPlanes : Nat
  bitsPerPixel : Nat
  compression : Nat
  imageSize : Nat
  xPixelsPerMeter : Int
  yPixelsPerMeter : Int
  colorsUsed : Nat
  importantColors : Nat
  deriving DecidableEq, Repr

structure BitmapFileHeader where
  signature : List UInt8
  fileSize : Nat
  reserved : Nat
  dataOffset : Nat
  infoHeader : BitmapInfoHeader
  deriving DecidableEq, Repr

structure Bitmap where
  header : BitmapFileHeader
  pixelData : List Nat
  deriving DecidableEq, Repr

namespace Bitmap

/-- An unsigned little-endian integer. -/
def fromLe (bytes : List UInt8) : Nat := bytes.foldr (fun b n => b.toNat + 256 * n) 0

/-- The integer in the `n` bytes of a packed structure from offset `i` on. -/
def unsignedAt (data : List UInt8) (i n : Nat) : Nat := fromLe ((data.drop i).take n)

theorem fromLe_lt (bytes : List UInt8) : fromLe bytes < 256 ^ bytes.length := by
  induction bytes with
  | nil => decide
  | cons b bytes ih =>
    have hb := b.toNat_lt
    rw [List.length_cons,Nat.pow_succ]
    change b.toNat + 256 * fromLe bytes < _
    omega

theorem unsignedAt_lt (data : List UInt8) (i n : Nat) : unsignedAt data i n < 256^n := by
  have hword := fromLe_lt ((data.drop i).take n)
  have hlen : ((data.drop i).take n).length ≤ n := List.length_take_le n _
  exact Nat.lt_of_lt_of_le hword (Nat.pow_le_pow_right (by decide) hlen)

/-- The `i32` at an offset. -/
def signedAt (data : List UInt8) (i : Nat) : Int :=
  let n := unsignedAt data i 4
  if n < 2^31 then n else n - 2^32

/-- `size_of::<BitmapFileHeader>()`. -/
def headerSize : Nat := 54

/-- The packed header over the first bytes. The word of the compression is taken as it is. -/
def readHeader (data : List UInt8) : BitmapFileHeader where
  signature := data.take 2
  fileSize := unsignedAt data 2 4
  reserved := unsignedAt data 6 4
  dataOffset := unsignedAt data 10 4
  infoHeader := {
    headerSize := unsignedAt data 14 4
    width := signedAt data 18
    height := signedAt data 22
    colorPlanes := unsignedAt data 26 2
    bitsPerPixel := unsignedAt data 28 2
    compression := unsignedAt data 30 4
    imageSize := unsignedAt data 34 4
    xPixelsPerMeter := signedAt data 38
    yPixelsPerMeter := signedAt data 42
    colorsUsed := unsignedAt data 46 4
    importantColors := unsignedAt data 50 4 }

def color (r g b a : UInt8) : Nat := (a.toNat <<< 24) ||| (r.toNat <<< 16) ||| (g.toNat <<< 8) ||| b.toNat

/-- The result of an operation on `usize`; `none` when it overflows. -/
def checkedUsize (n : Nat) : Option Nat := if n < 2^64 then some n else none

/-- The pixels of one row, `row[..row_size]` in triples; `none` when the row is shorter. -/
def rowPixels (rowSize : Nat) (row : List UInt8) : Option (List Nat) :=
  if rowSize ≤ row.length then
    some ((triples (row.take rowSize)).map fun (b,g,r) => color r g b 0xff)
  else none

/-- The rows from the data offset on; `none` for an offset behind the end, a chunk size of 0 or a row that is short. -/
def readRows (data : List UInt8) (offset rowSize paddedRowSize : Nat) : Option (List Nat) :=
  if offset ≤ data.length ∧ paddedRowSize ≠ 0 then
    ((chunks paddedRowSize (data.drop offset)).mapM (rowPixels rowSize)).map List.flatten
  else none

/-- The outer `none` is a panic, the inner one the answer that the data is no valid or supported image. -/
def fromBytes (data : List UInt8) : Option (Option Bitmap) :=
  if data.length < headerSize then none
  else
    let header := readHeader data
    if header.signature ≠ [0x42,0x4d] then some none
    else if header.infoHeader.colorPlanes ≠ 1 ∨ header.infoHeader.bitsPerPixel ≠ 24 then some none
    else do
      let width := (header.infoHeader.width % 2^64).toNat
      let rowSize ← checkedUsize (width * 3)
      let paddedRowSize := (← checkedUsize (rowSize + 3)) / 4 * 4
      let pixelData ← readRows data header.dataOffset rowSize paddedRowSize
      return some ⟨header,pixelData⟩

def width (b : Bitmap) : Nat := (b.header.infoHeader.width % 2^32).toNat

def height (b : Bitmap) : Nat := (b.header.infoHeader.height % 2^32).toNat

end Bitmap

end HeineOS
