import HeineOS.Library.Parsing

/-! Files written by the rules of the BMP format, and the images that the loader reads from them. -/
namespace HeineOS.Bitmap
open Lib

/-- The bytes of a little-endian integer. -/
def toLe (v : Nat) : (n : Nat) → List UInt8
  | 0 => []
  | n + 1 => UInt8.ofNat v :: toLe (v / 256) n

structure Pixel where
  red : UInt8
  green : UInt8
  blue : UInt8

/-- A row of pixels, with bytes that fill it up to a multiple of four. -/
structure StoredRow (width : Nat) where
  pixels : List Pixel
  padding : List UInt8
  length_pixels : pixels.length = width
  length_padding : (width * 3 + padding.length) = (width * 3 + 3) / 4 * 4

/-- The colour of a pixel with full alpha. -/
def Pixel.argb (p : Pixel) : Nat := 0xff000000 ||| (p.red.toNat <<< 16) ||| (p.green.toNat <<< 8) ||| p.blue.toNat

def StoredRow.bytes {width : Nat} (row : StoredRow width) : List UInt8 :=
  row.pixels.flatMap (fun p => [p.blue,p.green,p.red]) ++ row.padding

/-- An image in the format, the bottom row first. The words of the header that the loader does not read are free. -/
structure BmpFile where
  fileSize : Nat
  reserved : Nat
  headerSize : Nat
  imageSize : Nat
  xPixelsPerMeter : Nat
  yPixelsPerMeter : Nat
  colorsUsed : Nat
  importantColors : Nat
  filler : List UInt8
  offset_lt : 54 + filler.length < 2^32
  width : Nat
  width_pos : 1 ≤ width
  width_lt : width < 2^31
  rows : List (StoredRow width)
  height_lt : rows.length < 2^31

namespace BmpFile
variable (f : BmpFile)

/-- The words of the header after the signature, with their sizes. -/
def words : List (Nat × Nat) := [
  (f.fileSize,4), (f.reserved,4), (54 + f.filler.length,4), (f.headerSize,4), (f.width,4), (f.rows.length,4), (1,2),
  (24,2), (0,4), (f.imageSize,4), (f.xPixelsPerMeter,4), (f.yPixelsPerMeter,4), (f.colorsUsed,4),
  (f.importantColors,4)]

def header : List UInt8 := [0x42,0x4d] ++ f.words.flatMap fun (v,n) => toLe v n

def bytes : List UInt8 := f.header ++ (f.filler ++ (f.rows.map StoredRow.bytes).flatten)

end BmpFile

/-! ### The header -/

@[simp] private theorem length_toLe (v n : Nat) : (toLe v n).length = n := by
  induction n generalizing v with
  | zero => rfl
  | succ n ih => rw [toLe,List.length_cons,ih]

private theorem fromLe_toLe (v n : Nat) : fromLe (toLe v n) = v % 256 ^ n := by
  induction n generalizing v with
  | zero => rw [Nat.pow_zero,Nat.mod_one]; rfl
  | succ n ih =>
    have hpow : 256 ^ (n + 1) = 256 * 256 ^ n := Nat.pow_succ'
    change (UInt8.ofNat v).toNat + 256 * fromLe (toLe (v / 256) n) = _
    rw [ih,hpow,Nat.mod_mul]
    simp

private theorem signedAt_of_word {data : List UInt8} {i v : Nat} (h : unsignedAt data i 4 = v % 256 ^ 4)
    (hv : v < 2^31) : signedAt data i = v := by
  rw [signedAt,h,Nat.mod_eq_of_lt (by omega),if_pos hv]

private theorem length_words (words : List (Nat × Nat)) :
    (words.flatMap fun (v,n) => toLe v n).length = (words.map Prod.snd).sum := by
  rw [List.length_flatMap]
  simp only [length_toLe]

section
variable (f : BmpFile)

/-- A word of the header is found behind the words before it. -/
private theorem unsignedAt_word (k : Nat) {v n : Nat} (h : f.words[k]? = some (v,n)) :
    unsignedAt f.bytes (2 + ((f.words.take k).map Prod.snd).sum) n = v % 256 ^ n := by
  obtain ⟨hk,hget⟩ := List.getElem?_eq_some_iff.mp h
  have hsplit : f.words = f.words.take k ++ (v,n) :: f.words.drop (k + 1) := by
    rw [← hget,← List.drop_eq_getElem_cons hk,List.take_append_drop]
  have hbytes : f.bytes = ([0x42,0x4d] ++ (f.words.take k).flatMap fun (v,n) => toLe v n) ++ (toLe v n ++
      ((f.words.drop (k + 1)).flatMap (fun (v,n) => toLe v n) ++
        (f.filler ++ (f.rows.map StoredRow.bytes).flatten))) := by
    rw [BmpFile.bytes,BmpFile.header]
    conv_lhs => rw [hsplit]
    simp only [List.flatMap_append, List.flatMap_cons, List.append_assoc]
  have hlen : (([0x42,0x4d] : List UInt8) ++ (f.words.take k).flatMap fun (v,n) => toLe v n).length =
      2 + ((f.words.take k).map Prod.snd).sum := by
    rw [List.length_append,length_words]
    rfl
  rw [unsignedAt,hbytes,List.drop_left' hlen,List.take_left' (length_toLe v n),fromLe_toLe]

private theorem length_header : f.header.length = 54 := by
  rw [BmpFile.header,List.length_append,length_words]
  simp [BmpFile.words]

private theorem offset_word : unsignedAt f.bytes 10 4 = (54 + f.filler.length) % 256 ^ 4 := unsignedAt_word f 2 rfl

private theorem width_word : unsignedAt f.bytes 18 4 = f.width % 256 ^ 4 := unsignedAt_word f 4 rfl

private theorem height_word : unsignedAt f.bytes 22 4 = f.rows.length % 256 ^ 4 := unsignedAt_word f 5 rfl

private theorem planes_word : unsignedAt f.bytes 26 2 = 1 := unsignedAt_word f 6 rfl

private theorem bits_word : unsignedAt f.bytes 28 2 = 24 := unsignedAt_word f 7 rfl

private theorem dataOffset_eq : (readHeader f.bytes).dataOffset = 54 + f.filler.length := by
  rw [readHeader,offset_word]
  exact Nat.mod_eq_of_lt f.offset_lt

private theorem width_eq : (readHeader f.bytes).infoHeader.width = f.width := by
  have hword : signedAt f.bytes 18 = f.width := signedAt_of_word (width_word f) f.width_lt
  rw [← hword,readHeader]

private theorem height_eq : (readHeader f.bytes).infoHeader.height = f.rows.length := by
  have hword : signedAt f.bytes 22 = f.rows.length := signedAt_of_word (height_word f) f.height_lt
  rw [← hword,readHeader]

private theorem accepted_bytes : Accepted f.bytes := by
  rw [Accepted,readHeader,planes_word,bits_word]
  exact ⟨rfl,rfl,rfl⟩

/-! ### The rows -/

private theorem rowSize_eq : rowSize (readHeader f.bytes) = f.width * 3 := by rw [rowSize,width_eq,Int.toNat_natCast]

private theorem paddedRowSize_eq : paddedRowSize (readHeader f.bytes) = (f.width * 3 + 3) / 4 * 4 := by
  rw [paddedRowSize,rowSize_eq]

private theorem length_pixelBytes (pixels : List Pixel) :
    (pixels.flatMap fun p => [p.blue,p.green,p.red]).length = pixels.length * 3 := by
  rw [List.flatMap_def,length_flatten (n := 3),List.length_map]
  simp

private theorem length_row {width : Nat} (row : StoredRow width) : row.bytes.length = (width * 3 + 3) / 4 * 4 := by
  rw [StoredRow.bytes,List.length_append,length_pixelBytes,row.length_pixels,row.length_padding]

private theorem length_rows : ∀ row ∈ f.rows.map StoredRow.bytes, row.length = paddedRowSize (readHeader f.bytes) := by
  intro row hrow
  obtain ⟨stored,_,hstored⟩ := List.mem_map.mp hrow
  rw [← hstored,length_row,paddedRowSize_eq]

private theorem color_opaque (p : Pixel) : color p.red p.green p.blue 0xff = p.argb := by
  have halpha : (0xff : UInt8).toNat <<< 24 = 0xff000000 := by decide
  rw [color,halpha,Pixel.argb]

private theorem rowPixels_bytes {width : Nat} (row : StoredRow width) :
    (triples (row.bytes.take (width * 3))).map (fun (b,g,r) => color r g b 0xff) = row.pixels.map Pixel.argb := by
  have hlen : (row.pixels.flatMap fun p => [p.blue,p.green,p.red]).length = width * 3 := by
    rw [length_pixelBytes,row.length_pixels]
  rw [StoredRow.bytes,List.take_left' hlen,triples_flatMap row.pixels fun p => (p.blue,p.green,p.red),List.map_map]
  apply List.map_congr_left
  intro p _
  exact color_opaque p

private theorem drop_bytes : f.bytes.drop (54 + f.filler.length) = (f.rows.map StoredRow.bytes).flatten := by
  rw [BmpFile.bytes,← List.append_assoc]
  apply List.drop_left'
  rw [List.length_append,length_header]

private theorem storedPixels_eq : storedPixels f.bytes = (f.rows.map fun row => row.pixels.map Pixel.argb).flatten := by
  have hpos : 0 < paddedRowSize (readHeader f.bytes) := by
    have hwidth := f.width_pos
    rw [paddedRowSize_eq]
    omega
  rw [storedPixels,dataOffset_eq,drop_bytes,chunks_flatten hpos (length_rows f),List.map_map,rowSize_eq]
  congr 1
  apply List.map_congr_left
  intro row _
  exact rowPixels_bytes row

private theorem wholeRows_bytes : WholeRows f.bytes := by
  have hlen : f.bytes.length = 54 + f.filler.length + f.rows.length * paddedRowSize (readHeader f.bytes) := by
    have hrows := length_flatten (length_rows f)
    rw [List.length_map] at hrows
    rw [← hrows,BmpFile.bytes,List.length_append,List.length_append,length_header,Nat.add_assoc]
  rw [WholeRows,dataOffset_eq,hlen,Nat.add_sub_cancel_left]
  exact ⟨by omega,.inl (Nat.mul_mod_left _ _)⟩

/-- The loader reads back every image in the format: its size, and the colour of each pixel in its place. -/
theorem from_bytes_round_trip : ∃ b, fromBytes f.bytes = some (some b) ∧ b.width = f.width ∧
    b.height = f.rows.length ∧ b.pixelData.length = f.width * f.rows.length ∧
    ∀ r row, f.rows[r]? = some row → ∀ c p, row.pixels[c]? = some p →
      b.pixelData[r * f.width + c]? = some p.argb := by
  have hlen : headerSize ≤ f.bytes.length := by
    rw [BmpFile.bytes,List.length_append,length_header,headerSize]
    omega
  have hpos : 0 < (readHeader f.bytes).infoHeader.width := by
    have hwidth := f.width_pos
    rw [width_eq]
    omega
  have hparse := fromBytes_of_accepted hlen (accepted_bytes f)
  rw [if_pos ⟨hpos,wholeRows_bytes f⟩,storedPixels_eq] at hparse
  have hcolours : ∀ row ∈ f.rows.map fun row => row.pixels.map Pixel.argb, row.length = f.width := by
    intro row hrow
    obtain ⟨stored,_,hstored⟩ := List.mem_map.mp hrow
    rw [← hstored,List.length_map,stored.length_pixels]
  refine ⟨_,hparse,?_,?_,?_,?_⟩
  · have hwidth := f.width_lt
    rw [width,width_eq]
    omega
  · have hheight := f.height_lt
    rw [height,height_eq]
    omega
  · rw [length_flatten hcolours,List.length_map,Nat.mul_comm]
  · intro r row hrow c p hp
    have hc : c < f.width := by
      rw [← row.length_pixels]
      exact (List.getElem?_eq_some_iff.mp hp).1
    have hcolour : (f.rows.map fun row => row.pixels.map Pixel.argb)[r]? = some (row.pixels.map Pixel.argb) := by
      rw [List.getElem?_map,hrow,Option.map_some]
    rw [getElem?_flatten hcolours hcolour hc,List.getElem?_map,hp,Option.map_some]

end

/-- Two rows of two pixels, green and blue under red and white, with two bytes of padding in each row. -/
def fourPixels : BmpFile where
  fileSize := 70
  reserved := 0
  headerSize := 40
  imageSize := 16
  xPixelsPerMeter := 0
  yPixelsPerMeter := 0
  colorsUsed := 0
  importantColors := 0
  filler := []
  offset_lt := by decide
  width := 2
  width_pos := by decide
  width_lt := by decide
  rows := [⟨[⟨0,0xff,0⟩,⟨0,0,0xff⟩],[7,8],rfl,rfl⟩,⟨[⟨0xff,0,0⟩,⟨0xff,0xff,0xff⟩],[9,10],rfl,rfl⟩]
  height_lt := by decide

theorem from_bytes_round_trip_four : ∃ b, fromBytes fourPixels.bytes = some (some b) ∧ b.width = 2 ∧ b.height = 2 ∧
    b.pixelData[1]? = some 0xff0000ff ∧ b.pixelData[2]? = some 0xffff0000 := by
  obtain ⟨b,hb,hwidth,hheight,_,hpixels⟩ := from_bytes_round_trip fourPixels
  exact ⟨b,hb,hwidth,hheight,hpixels 0 _ rfl 1 _ rfl,hpixels 1 _ rfl 0 _ rfl⟩

end HeineOS.Bitmap
