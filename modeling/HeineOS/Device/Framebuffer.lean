import HeineOS.Lib.Bytes
import Mathlib.Tactic.IntervalCases

/-! The linear framebuffer in 32-bit format: pixels, characters and scrolling as stores to memory, and what they
do to the byte in each place of the screen. -/
namespace HeineOS
open Lib

structure Framebuffer where
  width : Nat
  height : Nat
  pitch : Nat
  address : Nat

/-- The font that the kernel is built with. A character may have no glyph. -/
structure Font where
  charHeight : Nat
  charHeight_pos : 0 < charHeight
  glyph : Char → Option (List UInt8)

namespace Framebuffer

def color (red green blue : Nat) : Nat := (red <<< 16) ||| (green <<< 8) ||| blue

def black : Nat := color 0 0 0
def green : Nat := color 0 170 0

def charWidth : Nat := 8

variable (fb : Framebuffer) (font : Font)

def clear (m : Bytes) : Bytes := m.fill fb.address 0 (fb.pitch * fb.height)

def drawPixelUnchecked (m : Bytes) (x y color : Nat) : Bytes :=
  m.store (fb.address + (y * fb.pitch + x * 4)) 4 color

section
variable (fgColor bgColor y : Nat)

/-- The loop over the bits of a byte, with the running `x`. -/
def drawBits (pixels : UInt8) (bits : List Nat) (p : Bytes × Nat) : Bytes × Nat :=
  bits.foldl (fun p bit =>
    (fb.drawPixelUnchecked p.1 p.2 y (if pixels.toNat.testBit bit then fgColor else bgColor),p.2 + 1)) p

/-- The loop over the bytes in the width of a character. -/
def drawLine (pixels : UInt8) (m : Bytes) (x : Nat) : Bytes :=
  ((List.range ((charWidth + 7) / 8)).foldl
    (fun p _ => fb.drawBits fgColor bgColor y pixels [7,6,5,4,3,2,1,0] p) (m,x)).1

end

/-- `none` when an index is out of range. -/
def drawChar (m : Bytes) (c : Char) (x y fgColor bgColor : Nat) : Option Bytes :=
  if x + charWidth > fb.width ∨ y + font.charHeight > fb.height then some m
  else
    match font.glyph c with
    | none => some m
    | some charPixels =>
      (List.range font.charHeight).foldlM (fun m yOffset =>
        charPixels[yOffset]?.map fun pixels => fb.drawLine fgColor bgColor (y + yOffset) pixels m x) m

def scrollUp (m : Bytes) (lines : Nat) : Bytes :=
  let lineSize := fb.pitch * font.charHeight
  let scrollSize := lineSize * lines
  let totalSize := fb.pitch * fb.height
  if scrollSize ≥ totalSize then fb.clear m
  else
    let copyCount := totalSize - scrollSize
    let m := m.copy (fb.address + scrollSize) fb.address copyCount
    m.fill (fb.address + copyCount) 0 scrollSize

/-- The address of the byte `b` in the row `y` of pixels. -/
def place (y b : Nat) : Nat := fb.address + (y * fb.pitch + b)

/-- The byte `b` of a row of pixels, given the colours in the row. -/
def rowByte (colors : Nat → Nat) (b : Nat) : UInt8 := UInt8.ofNat (colors (b / 4) / 256^(b % 4))

variable {fb font} {m : Bytes} {y b : Nat}

private theorem lt_rows {h : Nat} (hb : b < fb.pitch) : y * fb.pitch + b < fb.pitch * h ↔ y < h := by
  rw [Nat.mul_comm fb.pitch]
  constructor
  · intro hlt
    by_contra hge
    have hle := Nat.mul_le_mul_right fb.pitch (Nat.le_of_not_lt hge)
    omega
  · intro hlt
    have hle := Nat.mul_le_mul_right fb.pitch (Nat.succ_le_of_lt hlt)
    rw [Nat.succ_mul] at hle
    omega

theorem exists_place (hp : 0 < fb.pitch) {a : Nat} (ha : fb.address ≤ a) :
    ∃ y b, b < fb.pitch ∧ a = fb.place y b := by
  refine ⟨(a - fb.address) / fb.pitch,(a - fb.address) % fb.pitch,Nat.mod_lt _ hp,?_⟩
  have h := Nat.div_add_mod (a - fb.address) fb.pitch
  rw [Nat.mul_comm] at h
  rw [place]
  omega

/-- The places within a part of the row `y`. -/
private theorem place_mem {y' lo n : Nat} (hb : b < fb.pitch) (hn : lo + n ≤ fb.pitch) :
    fb.place y lo ≤ fb.place y' b ∧ fb.place y' b < fb.place y lo + n ↔ y' = y ∧ lo ≤ b ∧ b < lo + n := by
  simp only [place]
  rcases Nat.lt_trichotomy y' y with h | rfl | h
  · have hle := Nat.mul_le_mul_right fb.pitch (Nat.succ_le_of_lt h)
    rw [Nat.succ_mul] at hle
    omega
  · omega
  · have hle := Nat.mul_le_mul_right fb.pitch (Nat.succ_le_of_lt h)
    rw [Nat.succ_mul] at hle
    omega

theorem clear_place (hb : b < fb.pitch) :
    fb.clear m (fb.place y b) = if y < fb.height then 0 else m (fb.place y b) := by
  have h := @lt_rows fb y b fb.height hb
  rw [clear,place]
  by_cases hy : y < fb.height
  · rw [if_pos hy,Bytes.fill_of_mem _ _ (by omega)]
  · rw [if_neg hy,Bytes.fill_of_not_mem _ _ (by omega)]

theorem clear_below {a : Nat} (ha : a < fb.address) : fb.clear m a = m a :=
  Bytes.fill_of_not_mem _ _ (by omega)

theorem drawPixelUnchecked_place {x y' color : Nat} (hb : b < fb.pitch) (hx : 4 * x + 4 ≤ fb.pitch) :
    fb.drawPixelUnchecked m x y color (fb.place y' b) =
      if y' = y ∧ 4 * x ≤ b ∧ b < 4 * x + 4 then UInt8.ofNat (color / 256^(b - 4 * x)) else m (fb.place y' b) := by
  have h := @place_mem fb y b y' (4 * x) 4 hb hx
  rw [drawPixelUnchecked,Bytes.store,Nat.mul_comm x 4]
  change (if fb.place y (4 * x) ≤ fb.place y' b ∧ fb.place y' b < fb.place y (4 * x) + 4 then _ else _) = _
  by_cases hin : y' = y ∧ 4 * x ≤ b ∧ b < 4 * x + 4
  · rw [if_pos (h.mpr hin),if_pos hin,hin.1]
    congr 3
    simp only [place]
    omega
  · rw [if_neg (mt h.mp hin),if_neg hin]

theorem drawPixelUnchecked_below {x color a : Nat} (ha : a < fb.address) :
    fb.drawPixelUnchecked m x y color a = m a := Bytes.store_of_not_mem _ _ (by omega)

section
variable {fgColor bgColor x : Nat} {pixels : UInt8}

private theorem drawBits_place {bits : List Nat} {y' : Nat} (hb : b < fb.pitch)
    (hx : 4 * x + 4 * bits.length ≤ fb.pitch) :
    (fb.drawBits fgColor bgColor y pixels bits (m,x)).1 (fb.place y' b) =
      if y' = y ∧ 4 * x ≤ b ∧ b < 4 * x + 4 * bits.length then
        rowByte (fun i => if pixels.toNat.testBit (bits.getD (i - x) 0) then fgColor else bgColor) b
      else m (fb.place y' b) := by
  induction bits generalizing m x with
  | nil =>
    rw [if_neg (by rw [List.length_nil]; omega)]
    rfl
  | cons bit bits ih =>
    rw [List.length_cons] at hx ⊢
    rw [drawBits,List.foldl_cons]
    change (fb.drawBits fgColor bgColor y pixels bits (_,x + 1)).1 _ = _
    rw [ih (by omega),drawPixelUnchecked_place hb (by omega)]
    by_cases hlater : y' = y ∧ 4 * (x + 1) ≤ b ∧ b < 4 * (x + 1) + 4 * bits.length
    · have hi : b / 4 - x = (b / 4 - (x + 1)) + 1 := by omega
      rw [if_pos hlater,if_pos (by omega),rowByte,rowByte,hi,List.getD_cons_succ]
    · rw [if_neg hlater]
      by_cases hfirst : y' = y ∧ 4 * x ≤ b ∧ b < 4 * x + 4
      · have hi : b / 4 - x = 0 := by omega
        have hr : b % 4 = b - 4 * x := by omega
        have hin : y' = y ∧ 4 * x ≤ b ∧ b < 4 * x + 4 * (bits.length + 1) := by omega
        rw [if_pos hfirst,if_pos hin,rowByte,hi,hr,List.getD_cons_zero]
      · rw [if_neg hfirst,if_neg (by omega)]

private theorem drawBits_below {bits : List Nat} {a : Nat} (ha : a < fb.address) :
    (fb.drawBits fgColor bgColor y pixels bits (m,x)).1 a = m a := by
  induction bits generalizing m x with
  | nil => rfl
  | cons bit bits ih =>
    change (fb.drawBits fgColor bgColor y pixels bits (_,x + 1)).1 a = _
    rw [ih,drawPixelUnchecked_below ha]

private theorem drawLine_eq :
    fb.drawLine fgColor bgColor y pixels m x =
      (fb.drawBits fgColor bgColor y pixels [7,6,5,4,3,2,1,0] (m,x)).1 := rfl

/-- The colour of a pixel of a glyph: the highest bit of a byte is leftmost. -/
def glyphColor (charPixels : List UInt8) (fgColor bgColor i j : Nat) : Nat :=
  if (charPixels.getD j 0).toNat.testBit (7 - i) then fgColor else bgColor

private theorem bit_order {i : Nat} (hi : i < 8) : [7,6,5,4,3,2,1,0].getD i 0 = 7 - i := by
  interval_cases i <;> rfl

/-- The first `n` lines of a glyph. -/
private theorem drawLines_place {charPixels : List UInt8} {n : Nat} (hn : n ≤ charPixels.length) {y' : Nat}
    (hb : b < fb.pitch) (hx : 4 * x + 32 ≤ fb.pitch) :
    ∃ m', (List.range n).foldlM (fun m yOffset =>
        charPixels[yOffset]?.map fun pixels => fb.drawLine fgColor bgColor (y + yOffset) pixels m x) m = some m' ∧
      m' (fb.place y' b) =
        if (y ≤ y' ∧ y' < y + n) ∧ 4 * x ≤ b ∧ b < 4 * x + 32 then
          rowByte (fun i => glyphColor charPixels fgColor bgColor (i - x) (y' - y)) b
        else m (fb.place y' b) := by
  induction n with
  | zero => exact ⟨m,rfl,(if_neg (by omega)).symm⟩
  | succ n ih =>
    obtain ⟨m₁,h₁,hplace⟩ := ih (by omega)
    have hget : charPixels[n]? = some (charPixels.getD n 0) := by
      rw [List.getD_eq_getElem?_getD,List.getElem?_eq_getElem (by omega)]
      rfl
    refine ⟨fb.drawLine fgColor bgColor (y + n) (charPixels.getD n 0) m₁ x,?_,?_⟩
    · rw [List.range_succ,List.foldlM_append,h₁]
      simp only [Option.bind_eq_bind, Option.bind_some, List.foldlM_cons, hget, Option.map_some, List.foldlM_nil]
      rfl
    · have hlen : [7,6,5,4,3,2,1,0].length = 8 := rfl
      rw [drawLine_eq,drawBits_place hb (by rw [hlen]; omega),hplace,hlen]
      by_cases hline : y' = y + n ∧ 4 * x ≤ b ∧ b < 4 * x + 4 * 8
      · have hin : (y ≤ y' ∧ y' < y + (n + 1)) ∧ 4 * x ≤ b ∧ b < 4 * x + 32 := by omega
        have hj : y' - y = n := by omega
        rw [if_pos hline,if_pos hin,rowByte,rowByte,glyphColor,hj,bit_order (by omega)]
      · rw [if_neg hline]
        by_cases hin : (y ≤ y' ∧ y' < y + n) ∧ 4 * x ≤ b ∧ b < 4 * x + 32
        · rw [if_pos hin,if_pos (by omega)]
        · rw [if_neg hin,if_neg (by omega)]

private theorem drawLines_below {charPixels : List UInt8} {n : Nat} {m' : Bytes} {a : Nat} (ha : a < fb.address)
    (h : (List.range n).foldlM (fun m yOffset =>
        charPixels[yOffset]?.map fun pixels => fb.drawLine fgColor bgColor (y + yOffset) pixels m x) m = some m') :
    m' a = m a := by
  induction n generalizing m' with
  | zero =>
    cases h
    rfl
  | succ n ih =>
    rw [List.range_succ,List.foldlM_append] at h
    obtain ⟨m₁,h₁,h₂⟩ := Option.bind_eq_some_iff.mp h
    rw [List.foldlM_cons] at h₂
    obtain ⟨m₂,h₂,h₃⟩ := Option.bind_eq_some_iff.mp h₂
    obtain ⟨pixels,-,rfl⟩ := Option.map_eq_some_iff.mp h₂
    cases h₃
    rw [drawLine_eq,drawBits_below ha,ih h₁]

/-- A character that fits on the screen is drawn in its cell, and nothing else changes. -/
theorem drawChar_spec {c : Char} {charPixels : List UInt8} (hg : font.glyph c = some charPixels)
    (hlen : charPixels.length = font.charHeight) (hp : 4 * fb.width ≤ fb.pitch) (hx : x + 8 ≤ fb.width)
    (hy : y + font.charHeight ≤ fb.height) :
    ∃ m', fb.drawChar font m c x y fgColor bgColor = some m' ∧ (∀ a, a < fb.address → m' a = m a) ∧
      ∀ y' b, b < fb.pitch → m' (fb.place y' b) =
        if (y ≤ y' ∧ y' < y + font.charHeight) ∧ 4 * x ≤ b ∧ b < 4 * x + 32 then
          rowByte (fun i => glyphColor charPixels fgColor bgColor (i - x) (y' - y)) b
        else m (fb.place y' b) := by
  have hfit : ¬ (x + charWidth > fb.width ∨ y + font.charHeight > fb.height) := by
    rw [charWidth]
    omega
  have hpitch : 4 * x + 32 ≤ fb.pitch := by omega
  obtain ⟨m',h,-⟩ := @drawLines_place fb m y 0 fgColor bgColor x charPixels font.charHeight hlen.ge 0
    (by omega) hpitch
  refine ⟨m',?_,fun a ha => drawLines_below ha h,?_⟩
  · rw [drawChar,if_neg hfit,hg]
    exact h
  · intro y' b hb
    obtain ⟨m'',h',hplace⟩ := @drawLines_place fb m y b fgColor bgColor x charPixels font.charHeight hlen.ge y' hb
      hpitch
    rw [h] at h'
    cases h'
    exact hplace

end

/-- Scrolling by one line moves the rows of pixels up by the height of a character. -/
theorem scrollUp_place (hb : b < fb.pitch) :
    fb.scrollUp font m 1 (fb.place y b) =
      if y + font.charHeight < fb.height then m (fb.place (y + font.charHeight) b)
      else if y < fb.height then 0 else m (fb.place y b) := by
  rw [scrollUp,Nat.mul_one]
  by_cases hall : fb.pitch * font.charHeight ≥ fb.pitch * fb.height
  · have hle : fb.height ≤ font.charHeight := Nat.le_of_mul_le_mul_left hall (by omega)
    have hnone : ¬ y + font.charHeight < fb.height := by omega
    rw [if_pos hall,clear_place hb,if_neg hnone]
  · have hlt : font.charHeight < fb.height := by
      by_contra hge
      exact hall (Nat.mul_le_mul_left _ (Nat.le_of_not_lt hge))
    have hcopy : fb.pitch * fb.height - fb.pitch * font.charHeight = fb.pitch * (fb.height - font.charHeight) :=
      (Nat.mul_sub ..).symm
    have hrow := @lt_rows fb y b (fb.height - font.charHeight) hb
    have hend := @lt_rows fb y b fb.height hb
    have hsum : fb.pitch * (fb.height - font.charHeight) + fb.pitch * font.charHeight = fb.pitch * fb.height := by
      rw [← Nat.mul_add,Nat.sub_add_cancel hlt.le]
    rw [if_neg hall,hcopy,place,place]
    by_cases hmoved : y + font.charHeight < fb.height
    · have hplace : fb.address + fb.pitch * font.charHeight + (fb.address + (y * fb.pitch + b) - fb.address) =
          fb.address + ((y + font.charHeight) * fb.pitch + b) := by
        rw [Nat.add_mul,Nat.mul_comm font.charHeight]
        omega
      rw [if_pos hmoved,Bytes.fill_of_not_mem _ _ (by omega),Bytes.copy_of_mem _ (by omega),hplace]
    · rw [if_neg hmoved]
      by_cases hy : y < fb.height
      · rw [if_pos hy,Bytes.fill_of_mem _ _ (by omega)]
      · rw [if_neg hy,Bytes.fill_of_not_mem _ _ (by omega),Bytes.copy_of_not_mem _ (by omega)]

theorem scrollUp_below {lines a : Nat} (ha : a < fb.address) : fb.scrollUp font m lines a = m a := by
  rw [scrollUp]
  split_ifs with hall
  · exact clear_below ha
  · rw [Bytes.fill_of_not_mem _ _ (by omega),Bytes.copy_of_not_mem _ (by omega)]

end Framebuffer

end HeineOS
