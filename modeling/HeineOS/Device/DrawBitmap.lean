import HeineOS.Device.Framebuffer
import HeineOS.Library.Parsing

/-! Bitmaps on the framebuffer: the pixels that are drawn, and when the pixel data has all of them. -/
namespace HeineOS.Framebuffer
open Lib Bitmap
variable (fb : Framebuffer) (b : Bitmap) (x y : Nat)

/-- The pixels of the loops over the clipped rows and columns, with their colours, in the order in which they are drawn;
`none` when the sums overflow or the index into the pixel data is out of range. -/
def bitmapPixels : Option (List (Nat × Nat × Nat)) := do
  let right ← checkedUsize (x + b.width)
  let bottom ← checkedUsize (y + b.height)
  let targetWidth := if right > fb.width then fb.width - x else b.width
  let targetHeight := if bottom > fb.height then fb.height - y else b.height
  ((List.range targetHeight).product (List.range targetWidth)).mapM fun (row,col) =>
    let bmpRow := targetHeight - row - 1
    b.pixelData[bmpRow * b.width + col]?.map fun pixel => (x + col,y + row,pixel)

def drawBitmap (m : Bytes) : Option Bytes :=
  (fb.bitmapPixels b x y).map fun pixels =>
    pixels.foldl (fun m (px,py,pixel) => fb.drawPixelUnchecked m px py pixel) m

/-- The columns and the rows that lie within the framebuffer. -/
def visibleWidth : Nat := min b.width (fb.width - x)

def visibleHeight : Nat := min b.height (fb.height - y)

variable {fb b x y}

private theorem targetWidth_eq : (if x + b.width > fb.width then fb.width - x else b.width) = fb.visibleWidth b x := by
  rw [visibleWidth]
  split <;> omega

private theorem targetHeight_eq :
    (if y + b.height > fb.height then fb.height - y else b.height) = fb.visibleHeight b y := by
  rw [visibleHeight]
  split <;> omega

private theorem getElem?_map_eq (l : List Nat) (i : Nat) (f : Nat → Nat × Nat × Nat) :
    l[i]?.map f = if i < l.length then some (f (l.getD i 0)) else none := by
  split
  · rename_i h
    simp [List.getD, h]
  · rename_i h
    simp [h]

/-- The pixels drawn, where every index is in range. -/
theorem bitmapPixels_eq (hx : x + b.width < 2^64) (hy : y + b.height < 2^64) :
    fb.bitmapPixels b x y =
      if ∀ p ∈ (List.range (fb.visibleHeight b y)).product (List.range (fb.visibleWidth b x)),
        (fb.visibleHeight b y - p.1 - 1) * b.width + p.2 < b.pixelData.length then
        some (((List.range (fb.visibleHeight b y)).product (List.range (fb.visibleWidth b x))).map fun p =>
          (x + p.2,y + p.1,b.pixelData.getD ((fb.visibleHeight b y - p.1 - 1) * b.width + p.2) 0))
      else none := by
  have hright : checkedUsize (x + b.width) = some (x + b.width) := if_pos hx
  have hbottom : checkedUsize (y + b.height) = some (y + b.height) := if_pos hy
  rw [bitmapPixels]
  simp only [hright, hbottom, Option.bind_eq_bind, Option.bind_some, targetWidth_eq, targetHeight_eq, getElem?_map_eq]
  exact mapM_if _ _

/-- Clipping keeps every pixel within the framebuffer. -/
theorem bitmapPixels_visible {pixels : List (Nat × Nat × Nat)} (h : fb.bitmapPixels b x y = some pixels) :
    ∀ p ∈ pixels, p.1 < fb.width ∧ p.2.1 < fb.height := by
  have hx : x + b.width < 2^64 := by
    by_contra hover
    have hright : checkedUsize (x + b.width) = none := if_neg hover
    simp [bitmapPixels, hright] at h
  have hy : y + b.height < 2^64 := by
    by_contra hover
    have hbottom : checkedUsize (y + b.height) = none := if_neg hover
    simp [bitmapPixels, hbottom] at h
  rw [bitmapPixels_eq hx hy] at h
  split at h
  · rw [Option.some.injEq] at h
    intro pixel hpixel
    rw [← h] at hpixel
    obtain ⟨p,hp,hpixel⟩ := List.mem_map.mp hpixel
    rw [List.pair_mem_product,List.mem_range,List.mem_range,visibleWidth,visibleHeight] at hp
    rw [← hpixel]
    constructor
    · change x + p.2 < fb.width
      omega
    · change y + p.1 < fb.height
      omega
  · exact nomatch h

/-- The loops stay in rows that are there exactly when there are no columns or enough rows. -/
private theorem forall_index_lt_iff {w rows columns stored : Nat} (hcolumns : columns ≤ w) :
    (∀ p ∈ (List.range rows).product (List.range columns), (rows - p.1 - 1) * w + p.2 < stored * w) ↔
      columns = 0 ∨ rows ≤ stored := by
  constructor
  · intro h
    by_contra hnot
    rw [not_or,Nat.not_le] at hnot
    have hmem : (0,0) ∈ (List.range rows).product (List.range columns) := by
      rw [List.pair_mem_product,List.mem_range,List.mem_range]
      omega
    have hlast := h (0,0) hmem
    rw [Nat.sub_zero,Nat.add_zero] at hlast
    have hrows := Nat.lt_of_mul_lt_mul_right hlast
    omega
  · intro h p hp
    rw [List.pair_mem_product,List.mem_range,List.mem_range] at hp
    rcases h with h | h
    · omega
    · have hrow : rows - p.1 - 1 + 1 ≤ stored := by omega
      have hcells : (rows - p.1 - 1 + 1) * w ≤ stored * w := Nat.mul_le_mul_right w hrow
      rw [Nat.succ_mul] at hcells
      omega

/-- An image that the loader returned is drawn within the framebuffer, with every index in range, exactly when nothing
of its width is visible or as many of its rows are stored as are visible. -/
theorem parsed_bitmap_drawn_iff (fb : Framebuffer) (x y : Nat) {data : List UInt8}
    (hb : fromBytes data = some (some b)) (hx : x + b.width < 2^64) (hy : y + b.height < 2^64) :
    (∃ pixels, fb.bitmapPixels b x y = some pixels ∧ ∀ p ∈ pixels, p.1 < fb.width ∧ p.2.1 < fb.height) ↔
      fb.visibleWidth b x = 0 ∨ fb.visibleHeight b y ≤ storedRows data := by
  have hcolumns : fb.visibleWidth b x ≤ b.width := Nat.min_le_left _ _
  have hsome : (∃ pixels, fb.bitmapPixels b x y = some pixels ∧ ∀ p ∈ pixels, p.1 < fb.width ∧ p.2.1 < fb.height) ↔
      (fb.bitmapPixels b x y).isSome := by
    rw [Option.isSome_iff_exists]
    constructor
    · intro h
      obtain ⟨pixels,hpixels,_⟩ := h
      exact ⟨pixels,hpixels⟩
    · intro h
      obtain ⟨pixels,hpixels⟩ := h
      exact ⟨pixels,hpixels,bitmapPixels_visible hpixels⟩
  rw [hsome,bitmapPixels_eq hx hy,length_pixelData hb,← forall_index_lt_iff hcolumns]
  split
  · rename_i h
    exact iff_of_true rfl h
  · rename_i h
    exact iff_of_false (by simp) h

/-- A header of one pixel by two, with the bytes of one row. -/
def shortImage : List UInt8 := [
  0x42, 0x4d, 58, 0, 0, 0, 0, 0, 0, 0, 54, 0, 0, 0, 40, 0, 0, 0, 1, 0, 0, 0, 2, 0, 0, 0, 1, 0, 24, 0,
  0, 0, 0, 0, 4, 0, 0, 0, 0, 0, 0, 0, 0, 0, 0, 0, 0, 0, 0, 0, 0, 0, 0, 0, 255, 0, 0, 0]

/-- On a screen of one row, only the row that is there is visible. -/
theorem parsed_bitmap_drawn_short : ∃ b, fromBytes shortImage = some (some b) ∧
    ∃ pixels, bitmapPixels ⟨8,1,32,0⟩ b 0 0 = some pixels ∧ ∀ p ∈ pixels, p.1 < 8 ∧ p.2.1 < 1 := by
  have hb : fromBytes shortImage = some (some ⟨readHeader shortImage,[0xff0000ff]⟩) := rfl
  have hdrawn := parsed_bitmap_drawn_iff ⟨8,1,32,0⟩ 0 0 hb (by decide) (by decide)
  exact ⟨_,hb,hdrawn.mpr (.inr (by decide))⟩

/-- Two rows are visible, and the second one is not there. -/
theorem short_image_panics : ∃ b, fromBytes shortImage = some (some b) ∧ bitmapPixels ⟨8,8,32,0⟩ b 0 0 = none :=
  ⟨_,rfl,rfl⟩

end HeineOS.Framebuffer
