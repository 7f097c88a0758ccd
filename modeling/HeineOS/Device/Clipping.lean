import HeineOS.Device.DrawBitmap

/-! Clipping of bitmaps: the pixels of the screen after a bitmap is drawn, and when the visible part is in its place. -/
namespace HeineOS
open Lib

/-- The pixel in column `c` of the row `r` from the top; the rows are stored bottom-up. -/
def Bitmap.pixelAt (b : Bitmap) (c r : Nat) : Option Nat := b.pixelData[(b.height - 1 - r) * b.width + c]?

namespace Framebuffer
variable (fb : Framebuffer) (b : Bitmap) (x y : Nat)

/-- The pixel in a column and a row of the screen. -/
def pixel (m : Bytes) (column row : Nat) : Nat := m.load (fb.place row (4 * column)) 4

/-- Drawing shows the part of the picture that lies on the screen, changes no other pixel, and leaves the same screen
as a larger framebuffer that is cropped. -/
def OnlyCuts (m : Bytes) : Prop :=
  ∃ m', fb.drawBitmap b x y m = some m' ∧
    (∀ c r, c < b.width → r < b.height → x + c < fb.width → y + r < fb.height →
      b.pixelAt c r = some (fb.pixel m' (x + c) (y + r))) ∧
    (∀ column row, column < fb.width → row < fb.height →
      ¬ ((x ≤ column ∧ column < x + b.width) ∧ y ≤ row ∧ row < y + b.height) →
      fb.pixel m' column row = fb.pixel m column row) ∧
    ∀ (large : Framebuffer) (n n' : Bytes), 4 * large.width ≤ large.pitch → fb.width ≤ large.width →
      fb.height ≤ large.height → x + b.width ≤ large.width → y + b.height ≤ large.height →
      (∀ column row, column < fb.width → row < fb.height → large.pixel n column row = fb.pixel m column row) →
      large.drawBitmap b x y n = some n' →
      ∀ column row, column < fb.width → row < fb.height → fb.pixel m' column row = large.pixel n' column row

/-- Every visible pixel has the colour of the one that lies below it by the number of rows that are cut off. -/
def Repeats : Prop :=
  ∀ c r, c < fb.visibleWidth b x → r < fb.visibleHeight b y →
    b.pixelAt c r = b.pixelAt c (r + (b.height - fb.visibleHeight b y))

variable {fb b x y} {m : Bytes}

theorem drawPixelUnchecked_pixel {px py color column row : Nat} (hpitch : 4 * fb.width ≤ fb.pitch)
    (hpx : px < fb.width) (hcolumn : column < fb.width) (hcolor : color < 2^32) :
    fb.pixel (fb.drawPixelUnchecked m px py color) column row =
      if column = px ∧ row = py then color else fb.pixel m column row := by
  by_cases hsame : column = px ∧ row = py
  · rw [if_pos hsame,hsame.1,hsame.2,pixel,drawPixelUnchecked,Nat.mul_comm px]
    exact Bytes.load_store_of_lt _ hcolor
  · rw [if_neg hsame,pixel,pixel]
    apply Bytes.load_congr
    intro a hlow hhigh
    obtain ⟨i,rfl⟩ := Nat.exists_eq_add_of_le hlow
    have ha : fb.place row (4 * column) + i = fb.place row (4 * column + i) := by
      rw [place,place]
      omega
    rw [ha,drawPixelUnchecked_place (by omega) (by omega),if_neg]
    omega

/-- A loop that draws each pixel in the colour that `f` gives to its place. -/
theorem drawPixels_pixel {pixels : List (Nat × Nat × Nat)} {f : Nat → Nat → Nat} {column row : Nat}
    (hpitch : 4 * fb.width ≤ fb.pitch) (hcolumn : column < fb.width)
    (hpixels : ∀ p ∈ pixels, p.1 < fb.width ∧ p.2.2 = f p.1 p.2.1 ∧ p.2.2 < 2^32) :
    fb.pixel (pixels.foldl (fun m (px,py,pixel) => fb.drawPixelUnchecked m px py pixel) m) column row =
      if ∃ p ∈ pixels, p.1 = column ∧ p.2.1 = row then f column row else fb.pixel m column row := by
  induction pixels generalizing m with
  | nil => simp
  | cons p pixels ih =>
    rw [List.forall_mem_cons] at hpixels
    obtain ⟨⟨hpx,hf,hcolor⟩,hrest⟩ := hpixels
    rw [List.foldl_cons,ih hrest]
    change (if _ then _ else fb.pixel (fb.drawPixelUnchecked m p.1 p.2.1 p.2.2) column row) = _
    rw [drawPixelUnchecked_pixel hpitch hpx hcolumn hcolor]
    by_cases hlater : ∃ q ∈ pixels, q.1 = column ∧ q.2.1 = row
    · have hin : ∃ q ∈ p :: pixels, q.1 = column ∧ q.2.1 = row := by
        obtain ⟨q,hq,hplace⟩ := hlater
        exact ⟨q,List.mem_cons_of_mem _ hq,hplace⟩
      rw [if_pos hlater,if_pos hin]
    · rw [if_neg hlater]
      by_cases hfirst : column = p.1 ∧ row = p.2.1
      · have hin : ∃ q ∈ p :: pixels, q.1 = column ∧ q.2.1 = row :=
          ⟨p,List.mem_cons_self,hfirst.1.symm,hfirst.2.symm⟩
        rw [if_pos hfirst,if_pos hin,hf,← hfirst.1,← hfirst.2]
      · have hout : ¬ ∃ q ∈ p :: pixels, q.1 = column ∧ q.2.1 = row := by
          intro hin
          obtain ⟨q,hq,hplace⟩ := hin
          rcases List.mem_cons.mp hq with rfl | hq
          · exact hfirst ⟨hplace.1.symm,hplace.2.symm⟩
          · exact hlater ⟨q,hq,hplace⟩
        rw [if_neg hfirst,if_neg hout]

section
variable (hpitch : 4 * fb.width ≤ fb.pitch) (hlen : b.pixelData.length = b.width * b.height)
  (hcolors : ∀ color ∈ b.pixelData, color < 2^32) (hx : x + b.width < 2^64) (hy : y + b.height < 2^64)
include hlen

private theorem index_lt {c r : Nat} (hc : c < b.width) (hr : r < b.height) :
    (b.height - 1 - r) * b.width + c < b.pixelData.length := by
  have hrow : b.height - 1 - r + 1 ≤ b.height := by omega
  have hcells := Nat.mul_le_mul_right b.width hrow
  rw [Nat.succ_mul] at hcells
  rw [hlen,Nat.mul_comm b.width]
  omega

private theorem pixelAt_eq {c r : Nat} (hc : c < b.width) (hr : r < b.height) :
    b.pixelAt c r = some (b.pixelData.getD ((b.height - 1 - r) * b.width + c) 0) := by
  have h := index_lt hlen hc hr
  rw [Bitmap.pixelAt,List.getD_eq_getElem?_getD,List.getElem?_eq_getElem h]
  rfl

include hpitch hcolors hx hy

/-- The rows of the screen show the rows of the picture that lie lower by the number of rows that are cut off. -/
theorem drawBitmap_pixel (m : Bytes) :
    ∃ m', fb.drawBitmap b x y m = some m' ∧ ∀ column row, column < fb.width → row < fb.height →
      ((x ≤ column ∧ column < x + b.width) ∧ y ≤ row ∧ row < y + b.height →
        b.pixelAt (column - x) (row - y + (b.height - fb.visibleHeight b y)) = some (fb.pixel m' column row)) ∧
      (¬ ((x ≤ column ∧ column < x + b.width) ∧ y ≤ row ∧ row < y + b.height) →
        fb.pixel m' column row = fb.pixel m column row) := by
  have hwidth : fb.visibleWidth b x = min b.width (fb.width - x) := rfl
  have hheight : fb.visibleHeight b y = min b.height (fb.height - y) := rfl
  have hpixels := @bitmapPixels_eq fb b x y hx hy
  generalize fb.visibleWidth b x = w at hwidth hpixels
  generalize fb.visibleHeight b y = h at hheight hpixels ⊢
  have hrow {r : Nat} (hr : r < h) : h - r - 1 = b.height - 1 - (r + (b.height - h)) := by omega
  have hindex : ∀ p ∈ (List.range h).product (List.range w), (h - p.1 - 1) * b.width + p.2 < b.pixelData.length := by
    intro p hp
    rw [List.pair_mem_product,List.mem_range,List.mem_range] at hp
    rw [hrow hp.1]
    exact index_lt hlen (by omega) (by omega)
  rw [if_pos hindex] at hpixels
  let f (column row : Nat) : Nat :=
    b.pixelData.getD ((b.height - 1 - (row - y + (b.height - h))) * b.width + (column - x)) 0
  refine ⟨_,by rw [drawBitmap,hpixels,Option.map_some],?_⟩
  intro column row hcolumn hrowlt
  have hdrawn : ∀ p ∈ ((List.range h).product (List.range w)).map fun p =>
      (x + p.2,y + p.1,b.pixelData.getD ((h - p.1 - 1) * b.width + p.2) 0),
      p.1 < fb.width ∧ p.2.2 = f p.1 p.2.1 ∧ p.2.2 < 2^32 := by
    intro pixel hpixel
    obtain ⟨p,hp,rfl⟩ := List.mem_map.mp hpixel
    have hlt := hindex p hp
    rw [List.pair_mem_product,List.mem_range,List.mem_range] at hp
    refine ⟨by change x + p.2 < fb.width; omega,?_,?_⟩
    · change _ = b.pixelData.getD ((b.height - 1 - (y + p.1 - y + (b.height - h))) * b.width + (x + p.2 - x)) 0
      rw [Nat.add_sub_cancel_left,Nat.add_sub_cancel_left,← hrow hp.1]
    · apply hcolors
      rw [List.getD_eq_getElem?_getD,List.getElem?_eq_getElem hlt]
      exact List.getElem_mem hlt
  have hcovered : (∃ p ∈ ((List.range h).product (List.range w)).map fun p =>
      (x + p.2,y + p.1,b.pixelData.getD ((h - p.1 - 1) * b.width + p.2) 0), p.1 = column ∧ p.2.1 = row) ↔
      (x ≤ column ∧ column < x + b.width) ∧ y ≤ row ∧ row < y + b.height := by
    constructor
    · intro hin
      obtain ⟨pixel,hpixel,hplace⟩ := hin
      obtain ⟨p,hp,rfl⟩ := List.mem_map.mp hpixel
      rw [List.pair_mem_product,List.mem_range,List.mem_range] at hp
      change x + p.2 = column ∧ y + p.1 = row at hplace
      omega
    · intro hin
      refine ⟨_,List.mem_map.mpr ⟨(row - y,column - x),?_,rfl⟩,?_⟩
      · rw [List.pair_mem_product,List.mem_range,List.mem_range]
        omega
      · change x + (column - x) = column ∧ y + (row - y) = row
        omega
  constructor
  · intro hin
    rw [drawPixels_pixel hpitch hcolumn hdrawn,if_pos (hcovered.mpr hin)]
    exact pixelAt_eq hlen (by omega) (by omega)
  · intro hout
    rw [drawPixels_pixel hpitch hcolumn hdrawn,if_neg (mt hcovered.mp hout)]

/-- A bitmap that fits is shown as it is. -/
private theorem drawBitmap_pixel_large {n n' : Bytes} (hfit : y + b.height ≤ fb.height)
    (h : fb.drawBitmap b x y n = some n') {column row : Nat} (hcolumn : column < fb.width) (hrow : row < fb.height) :
    ((x ≤ column ∧ column < x + b.width) ∧ y ≤ row ∧ row < y + b.height →
      b.pixelAt (column - x) (row - y) = some (fb.pixel n' column row)) ∧
    (¬ ((x ≤ column ∧ column < x + b.width) ∧ y ≤ row ∧ row < y + b.height) →
      fb.pixel n' column row = fb.pixel n column row) := by
  obtain ⟨_,h',hpixels⟩ := drawBitmap_pixel hpitch hlen hcolors hx hy n
  rw [h,Option.some.injEq] at h'
  have hall : b.height - fb.visibleHeight b y = 0 := by
    rw [visibleHeight]
    omega
  rw [hall] at hpixels
  rw [h']
  exact hpixels column row hcolumn hrow

/-- Clipping only cuts exactly when no column or no row is visible, when no row is cut off, or when the picture repeats
itself by the number of rows that are cut off. -/
theorem clipping_only_cuts_iff (m : Bytes) :
    fb.OnlyCuts b x y m ↔
      fb.visibleWidth b x = 0 ∨ fb.height ≤ y ∨ y + b.height ≤ fb.height ∨ fb.Repeats b x y := by
  obtain ⟨m',hm',hpixels⟩ := drawBitmap_pixel hpitch hlen hcolors hx hy m
  have hrepeats : (fb.visibleWidth b x = 0 ∨ fb.height ≤ y ∨ y + b.height ≤ fb.height ∨ fb.Repeats b x y) ↔
      fb.Repeats b x y := by
    constructor
    · intro hcond c r hc hr
      rw [visibleWidth] at hcond
      rw [visibleWidth] at hc
      rw [visibleHeight] at hr ⊢
      rcases hcond with hcond | hcond | hcond | hcond
      · omega
      · omega
      · rw [show r + (b.height - min b.height (fb.height - y)) = r by omega]
      · exact hcond c r hc hr
    · intro hcond
      exact .inr (.inr (.inr hcond))
  rw [hrepeats]
  constructor
  · intro hcuts c r hc hr
    obtain ⟨_,hm'',hshown,-⟩ := hcuts
    rw [hm',Option.some.injEq] at hm''
    subst hm''
    have hc' : c < b.width ∧ x + c < fb.width := by
      rw [visibleWidth] at hc
      omega
    have hr' : r < b.height ∧ y + r < fb.height := by
      rw [visibleHeight] at hr
      omega
    have hdrawn := (hpixels (x + c) (y + r) hc'.2 hr'.2).1 (by omega)
    rw [Nat.add_sub_cancel_left,Nat.add_sub_cancel_left] at hdrawn
    rw [hdrawn,hshown c r hc'.1 hr'.1 hc'.2 hr'.2]
  · intro hcond
    have hshown {column row : Nat} (hcolumn : column < fb.width) (hrow : row < fb.height)
        (hin : (x ≤ column ∧ column < x + b.width) ∧ y ≤ row ∧ row < y + b.height) :
        b.pixelAt (column - x) (row - y) = some (fb.pixel m' column row) := by
      rw [← (hpixels column row hcolumn hrow).1 hin]
      apply hcond
      · rw [visibleWidth]
        omega
      · rw [visibleHeight]
        omega
    refine ⟨m',hm',?_,?_,?_⟩
    · intro c r hc hr hcolumn hrow
      have hpixel := hshown hcolumn hrow (by omega)
      rwa [Nat.add_sub_cancel_left,Nat.add_sub_cancel_left] at hpixel
    · intro column row hcolumn hrow
      exact (hpixels column row hcolumn hrow).2
    · intro large n n' hlarge hwidth hheight _ hfit hsame hn' column row hcolumn hrow
      have hpixel := drawBitmap_pixel_large hlarge hlen hcolors hx hy hfit hn' (hcolumn.trans_le hwidth)
        (hrow.trans_le hheight)
      by_cases hin : (x ≤ column ∧ column < x + b.width) ∧ y ≤ row ∧ row < y + b.height
      · have heq := hpixel.1 hin
        rw [hshown hcolumn hrow hin,Option.some.injEq] at heq
        exact heq
      · rw [(hpixels column row hcolumn hrow).2 hin,hpixel.2 hin,hsame column row hcolumn hrow]

end

/-- One column and two rows: black at the bottom, red at the top. -/
def twoRows : Bitmap := ⟨Bitmap.readHeader shortImage,[0xff000000,0xffff0000]⟩

/-- A screen that has room for both rows. -/
theorem clipping_only_cuts_fitting : OnlyCuts ⟨8,2,32,0⟩ twoRows 0 0 (fun _ => 0) :=
  (clipping_only_cuts_iff (by decide) rfl (by decide) (by decide) (by decide) _).mpr (.inr (.inr (.inl (by decide))))

/-- A screen of one row shows the bottom row in the place of the top one. -/
theorem clipping_shifts_rows : ¬ OnlyCuts ⟨8,1,32,0⟩ twoRows 0 0 (fun _ => 0) := by
  intro hcuts
  obtain ⟨m',hm',hshown,-⟩ := hcuts
  have hdrawn : drawBitmap ⟨8,1,32,0⟩ twoRows 0 0 (fun _ => 0) =
      some (drawPixelUnchecked ⟨8,1,32,0⟩ (fun _ => 0) 0 0 0xff000000) := rfl
  rw [hdrawn,Option.some.injEq] at hm'
  have hpixel := hshown 0 0 (by decide) (by decide) (by decide) (by decide)
  rw [← hm'] at hpixel
  revert hpixel
  decide

end Framebuffer

end HeineOS
