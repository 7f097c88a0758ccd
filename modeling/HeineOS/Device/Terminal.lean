import HeineOS.Device.Framebuffer
import HeineOS.Lib.System

/-! The terminal on a framebuffer against a screen of character cells. -/
namespace HeineOS
open Lib

structure Terminal where
  cols : Nat
  rows : Nat
  pos : Nat × Nat
  framebuffer : Framebuffer

namespace Terminal
open Framebuffer

def defaultFgColor : Nat := Framebuffer.green
def defaultBgColor : Nat := Framebuffer.black

variable (font : Font)

/-- The terminal and the memory behind its first clearing. -/
def new (framebuffer : Framebuffer) (m : Bytes) : Terminal × Bytes :=
  (⟨framebuffer.width / charWidth,framebuffer.height / font.charHeight,(0,0),framebuffer⟩,framebuffer.clear m)

def setPos (t : Terminal) (col row : Nat) : Terminal :=
  { t with pos := (max (min col (t.cols - 1)) 0,max (min row (t.rows - 1)) 0) }

def clear (t : Terminal) (m : Bytes) : Terminal × Bytes := ({ t with pos := (0,0) },t.framebuffer.clear m)

/-- `none` when the character cannot be drawn. -/
def putCharColored (t : Terminal) (m : Bytes) (c : Char) (fgColor bgColor : Nat) : Option (Terminal × Bytes) := do
  let (t,m) ←
    if c ≠ '\n' then do
      let x := t.pos.1 * charWidth
      let y := t.pos.2 * font.charHeight
      let m ← t.framebuffer.drawChar font m c x y fgColor bgColor
      some ({ t with pos := (t.pos.1 + 1,t.pos.2) },m)
    else some (t,m)
  let t := if t.pos.1 ≥ t.cols ∨ c = '\n' then { t with pos := (0,t.pos.2 + 1) } else t
  if t.pos.2 ≥ t.rows then
    some ({ t with pos := (t.pos.1,t.rows - 1) },t.framebuffer.scrollUp font m 1)
  else some (t,m)

def putChar (t : Terminal) (m : Bytes) (c : Char) : Option (Terminal × Bytes) :=
  t.putCharColored font m c defaultFgColor defaultBgColor

def writeStr (t : Terminal) (m : Bytes) (s : String) : Option (Terminal × Bytes) :=
  s.toList.foldlM (fun p c => p.1.putChar font p.2 c) (t,m)

inductive Call where
  | putChar (c : Char)
  | writeStr (s : String)
  | setPos (col row : Nat)
  | clear

def exec (p : Terminal × Bytes) : Call → Option (Terminal × Bytes)
  | .putChar c => p.1.putChar font p.2 c
  | .writeStr s => p.1.writeStr font p.2 s
  | .setPos col row => some (p.1.setPos col row,p.2)
  | .clear => some (p.1.clear p.2)

def execAll (p : Terminal × Bytes) (calls : List Call) : Option (Terminal × Bytes) :=
  calls.foldlM (exec font) p

def Call.chars : Call → List Char
  | .putChar c => [c]
  | .writeStr s => s.toList
  | _ => []

end Terminal

/-- A text screen: the character in each cell, by row and column, and the place for the next one. -/
structure Screen where
  cols : Nat
  rows : Nat
  cell : Nat → Nat → Option Char
  col : Nat
  row : Nat

namespace Screen

def blank (cols rows : Nat) : Screen := ⟨cols,rows,fun _ _ => none,0,0⟩

/-- To the start of the next row; below the last one the top line is dropped, the others move up and a blank
line follows. -/
def newLine (s : Screen) : Screen :=
  if s.row + 1 < s.rows then { s with col := 0, row := s.row + 1 }
  else { s with cell := fun r c => if r + 1 < s.rows then s.cell (r + 1) c else none, col := 0 }

def advance (s : Screen) : Screen := if s.col + 1 < s.cols then { s with col := s.col + 1 } else s.newLine

def putChar (s : Screen) (c : Char) : Screen :=
  if c = '\n' then s.newLine
  else advance { s with cell := Function.update s.cell s.row (Function.update (s.cell s.row) s.col (some c)) }

def exec (s : Screen) : Terminal.Call → Screen
  | .putChar c => s.putChar c
  | .writeStr str => str.toList.foldl putChar s
  | .setPos col row => { s with col := min col (s.cols - 1), row := min row (s.rows - 1) }
  | .clear => blank s.cols s.rows

def execAll (s : Screen) (calls : List Terminal.Call) : Screen := calls.foldl exec s

/-- The colour of the pixel `x` in the row `y`: cells hold their glyph, and everything else is black. -/
def pixel (font : Font) (s : Screen) (x y : Nat) : Nat :=
  if x / 8 < s.cols ∧ y / font.charHeight < s.rows then
    match s.cell (y / font.charHeight) (x / 8) with
    | none => 0
    | some c => Framebuffer.glyphColor ((font.glyph c).getD []) Terminal.defaultFgColor Terminal.defaultBgColor
        (x % 8) (y % font.charHeight)
  else 0

end Screen

namespace Terminal
open Framebuffer

/-- At least one full character cell, and rows that lie apart. -/
structure Fits (font : Font) (fb : Framebuffer) : Prop where
  pitch : 4 * fb.width ≤ fb.pitch
  width : charWidth ≤ fb.width
  height : font.charHeight ≤ fb.height

/-- The memory holds the rendering of the screen, and is otherwise as in `m₀`. -/
structure Picture (font : Font) (fb : Framebuffer) (m₀ m : Bytes) (s : Screen) : Prop where
  inside : ∀ y b, y < fb.height → b < fb.pitch → m (fb.place y b) = rowByte (fun x => s.pixel font x y) b
  outside : ∀ a, a < fb.address ∨ fb.address + fb.pitch * fb.height ≤ a → m a = m₀ a

/-- The terminal and the memory against the screen. -/
structure Shows (font : Font) (fb : Framebuffer) (m₀ : Bytes) (p : Terminal × Bytes) (s : Screen) : Prop where
  framebuffer : p.1.framebuffer = fb
  cols : p.1.cols = s.cols
  rows : p.1.rows = s.rows
  width : s.cols = fb.width / charWidth
  height : s.rows = fb.height / font.charHeight
  pos : p.1.pos = (s.col,s.row)
  cursor : s.col < s.cols ∧ s.row < s.rows
  picture : Picture font fb m₀ p.2 s

variable {font : Font} {fb : Framebuffer} {m₀ m m' : Bytes} {s : Screen}

private theorem Picture.of_place (h : Picture font fb m₀ m s) (hp : 0 < fb.pitch) {s' : Screen}
    (hbelow : ∀ a, a < fb.address → m' a = m a)
    (habove : ∀ y b, fb.height ≤ y → b < fb.pitch → m' (fb.place y b) = m (fb.place y b))
    (hinside : ∀ y b, y < fb.height → b < fb.pitch → m' (fb.place y b) = rowByte (fun x => s'.pixel font x y) b) :
    Picture font fb m₀ m' s' := by
  refine ⟨hinside,?_⟩
  intro a ha
  rw [← h.outside a ha]
  rcases Nat.lt_or_ge a fb.address with hlt | hge
  · exact hbelow a hlt
  · obtain ⟨y,b,hb,rfl⟩ := exists_place hp hge
    apply habove y b _ hb
    by_contra hy
    have hle := Nat.mul_le_mul_left fb.pitch (Nat.succ_le_of_lt (Nat.lt_of_not_le hy))
    rw [Nat.mul_succ,Nat.mul_comm] at hle
    simp only [place] at ha
    omega

private theorem rowByte_zero {colors : Nat → Nat} {b : Nat} (h : colors (b / 4) = 0) : rowByte colors b = 0 := by
  rw [rowByte,h,Nat.zero_div]
  rfl

private theorem blank_pixel (cols rows x y : Nat) : (Screen.blank cols rows).pixel font x y = 0 := ite_self 0

private theorem Picture.cleared (h : Picture font fb m₀ m s) (hp : 0 < fb.pitch) (cols rows : Nat) :
    Picture font fb m₀ (fb.clear m) (.blank cols rows) := by
  apply h.of_place hp
  · intro a ha
    exact clear_below ha
  · intro y b hy hb
    rw [clear_place hb,if_neg (by omega)]
  · intro y b hy hb
    rw [clear_place hb,if_pos hy]
    apply (rowByte_zero _).symm
    exact blank_pixel ..

/-- The pixels of a cell. -/
private theorem in_cell {n r y : Nat} (hn : 0 < n) : r * n ≤ y ∧ y < r * n + n ↔ y / n = r := by
  rw [Nat.div_eq_iff hn]
  have h : n ≤ r * n + n := Nat.le_add_left _ _
  omega

private theorem cell_offset {n r y : Nat} (h : y / n = r) : y - r * n = y % n := by
  have hdiv := Nat.div_add_mod y n
  rw [h,Nat.mul_comm] at hdiv
  omega

/-- Drawing a character at the cursor puts it into its cell. -/
private theorem Picture.drawn (h : Picture font fb m₀ m s) (hf : Fits font fb) (hw : s.cols = fb.width / charWidth)
    (hh : s.rows = fb.height / font.charHeight) (hc : s.col < s.cols) (hr : s.row < s.rows) {c : Char}
    {charPixels : List UInt8} (hg : font.glyph c = some charPixels) (hlen : charPixels.length = font.charHeight) :
    ∃ m', fb.drawChar font m c (s.col * charWidth) (s.row * font.charHeight) defaultFgColor defaultBgColor = some m' ∧
      Picture font fb m₀ m'
        { s with cell := Function.update s.cell s.row (Function.update (s.cell s.row) s.col (some c)) } := by
  have hwidth := hf.width
  have hpitch := hf.pitch
  have hpos := font.charHeight_pos
  have hx : s.col * 8 + 8 ≤ fb.width := by
    rw [hw,charWidth] at hc
    omega
  have hy : s.row * font.charHeight + font.charHeight ≤ fb.height := by
    rw [hh] at hr
    have hle := Nat.mul_le_mul_right font.charHeight (Nat.succ_le_of_lt hr)
    have hdiv := Nat.div_mul_le_self fb.height font.charHeight
    rw [Nat.succ_mul] at hle
    omega
  obtain ⟨m',hdraw,hbelow,hplace⟩ := drawChar_spec hg hlen hpitch hx hy
  refine ⟨m',hdraw,h.of_place (by rw [charWidth] at hwidth; omega) hbelow ?_ ?_⟩
  · intro y b hy' hb
    rw [hplace y b hb,if_neg (by omega)]
  · intro y b hy' hb
    rw [hplace y b hb]
    have hrow := @in_cell font.charHeight s.row y hpos
    by_cases hcell : (b / 4) / 8 = s.col ∧ y / font.charHeight = s.row
    · have hin : (s.row * font.charHeight ≤ y ∧ y < s.row * font.charHeight + font.charHeight) ∧
          4 * (s.col * 8) ≤ b ∧ b < 4 * (s.col * 8) + 32 := by omega
      rw [if_pos hin,rowByte,rowByte,Screen.pixel,hcell.1,hcell.2,if_pos ⟨hc,hr⟩]
      simp only [Function.update_self, hg, Option.getD_some]
      rw [cell_offset hcell.2,show b / 4 - s.col * 8 = b / 4 % 8 by omega]
    · have hout : ¬ ((s.row * font.charHeight ≤ y ∧ y < s.row * font.charHeight + font.charHeight) ∧
          4 * (s.col * 8) ≤ b ∧ b < 4 * (s.col * 8) + 32) := by omega
      have hsame : Function.update s.cell s.row (Function.update (s.cell s.row) s.col (some c))
          (y / font.charHeight) (b / 4 / 8) = s.cell (y / font.charHeight) (b / 4 / 8) := by
        by_cases hy : y / font.charHeight = s.row
        · rw [hy,Function.update_self,Function.update_of_ne fun hx => hcell ⟨hx,hy⟩]
        · rw [Function.update_of_ne hy]
      rw [if_neg hout,h.inside y b hy' hb,rowByte,rowByte,Screen.pixel,Screen.pixel]
      simp only [hsame]

/-- Scrolling the memory scrolls the cells. -/
private theorem Picture.scrolled (h : Picture font fb m₀ m s) (hp : 0 < fb.pitch)
    (hh : s.rows = fb.height / font.charHeight) (col row : Nat) :
    Picture font fb m₀ (fb.scrollUp font m 1)
      { s with cell := fun r c => if r + 1 < s.rows then s.cell (r + 1) c else none, col := col, row := row } := by
  have hpos := font.charHeight_pos
  apply h.of_place hp
  · intro a ha
    exact scrollUp_below ha
  · intro y b hy hb
    rw [scrollUp_place hb,if_neg (by omega),if_neg (by omega)]
  · intro y b hy hb
    have hdiv : (y + font.charHeight) / font.charHeight = y / font.charHeight + 1 := Nat.add_div_right _ hpos
    have hmod : (y + font.charHeight) % font.charHeight = y % font.charHeight := Nat.add_mod_right _ _
    rw [scrollUp_place hb]
    by_cases hmoved : y + font.charHeight < fb.height
    · rw [if_pos hmoved,h.inside _ b hmoved hb,rowByte,rowByte,Screen.pixel,Screen.pixel,hdiv,hmod]
      by_cases hlast : y / font.charHeight + 1 < s.rows
      · simp only [hlast, and_true, if_true, show y / font.charHeight < s.rows by omega]
      · simp only [hlast, and_false, if_false, ite_self]
    · rw [if_neg hmoved,if_pos hy]
      have hlast : ¬ y / font.charHeight + 1 < s.rows := by
        rw [← hdiv,hh]
        exact Nat.not_lt.mpr (Nat.div_le_div_right (Nat.le_of_not_lt hmoved))
      apply (rowByte_zero _).symm
      simp only [Screen.pixel, hlast, if_false, ite_self]

section
variable {p : Terminal × Bytes}

private theorem pitch_pos (hf : Fits font fb) : 0 < fb.pitch := by
  have hw := hf.width
  have hp := hf.pitch
  rw [charWidth] at hw
  omega

theorem shows_new (hf : Fits font fb) (m : Bytes) :
    Shows font fb m (new font fb m) (.blank (fb.width / charWidth) (fb.height / font.charHeight)) := by
  have hc : 0 < fb.width / charWidth := Nat.div_pos hf.width (by decide)
  have hr : 0 < fb.height / font.charHeight := Nat.div_pos hf.height font.charHeight_pos
  refine ⟨rfl,rfl,rfl,rfl,rfl,rfl,⟨hc,hr⟩,?_,?_⟩
  · intro y b hy hb
    change fb.clear m (fb.place y b) = _
    rw [clear_place hb,if_pos hy]
    apply (rowByte_zero _).symm
    exact blank_pixel ..
  · intro a ha
    exact Bytes.fill_of_not_mem _ _ (by omega)

/-- The end of `put_char_colored`: the cursor may be below the last row. -/
private def settle (font : Font) (t : Terminal) (m : Bytes) : Option (Terminal × Bytes) :=
  if t.pos.2 ≥ t.rows then some ({ t with pos := (t.pos.1,t.rows - 1) },t.framebuffer.scrollUp font m 1)
  else some (t,m)

private theorem settle_newLine (hf : Fits font fb) (h : Shows font fb m₀ p s) :
    ∃ p', settle font { p.1 with pos := (0,s.row + 1) } p.2 = some p' ∧ Shows font fb m₀ p' s.newLine := by
  have hc := h.cursor
  rw [settle,Screen.newLine,h.rows]
  dsimp only
  by_cases hlast : s.row + 1 < s.rows
  · rw [if_neg (by omega),if_pos hlast]
    exact ⟨_,rfl,h.framebuffer,h.cols,h.rows,h.width,h.height,rfl,⟨by dsimp only; omega,hlast⟩,h.picture.1,h.picture.2⟩
  · rw [if_pos (by omega),if_neg hlast,h.framebuffer]
    refine ⟨_,rfl,rfl,h.cols,rfl,h.width,h.height,?_,⟨by dsimp only; omega,hc.2⟩,
      h.picture.scrolled (pitch_pos hf) h.height 0 s.row⟩
    dsimp only
    rw [show s.rows - 1 = s.row by omega]

/-- A character with a glyph of the right height, or the end of a line. -/
def Drawable (font : Font) (c : Char) : Prop :=
  c = '\n' ∨ ∃ charPixels, font.glyph c = some charPixels ∧ charPixels.length = font.charHeight

theorem putChar_shows (hf : Fits font fb) (h : Shows font fb m₀ p s) {c : Char} (hd : Drawable font c) :
    ∃ p', p.1.putChar font p.2 c = some p' ∧ Shows font fb m₀ p' (s.putChar c) := by
  have hc := h.cursor
  rw [putChar,putCharColored,Screen.putChar]
  by_cases hnl : c = '\n'
  · simp only [hnl, ne_eq, not_true, if_false, Option.bind_eq_bind, Option.bind_some, or_true, if_true]
    rw [h.pos]
    exact settle_newLine hf h
  · obtain ⟨charPixels,hg,hlen⟩ := hd.resolve_left hnl
    obtain ⟨m',hdraw,hpic⟩ := h.picture.drawn hf h.width h.height hc.1 hc.2 hg hlen
    simp only [hnl, ne_eq, not_false_eq_true, if_true, if_false, or_false, h.framebuffer, h.pos, hdraw,
      Option.bind_eq_bind, Option.bind_some]
    have h' : Shows font fb m₀ (p.1,m')
        { s with cell := Function.update s.cell s.row (Function.update (s.cell s.row) s.col (some c)) } :=
      ⟨h.framebuffer,h.cols,h.rows,h.width,h.height,h.pos,hc,hpic⟩
    rw [Screen.advance,h.cols]
    by_cases hline : s.col + 1 < s.cols
    · rw [if_neg (Nat.not_le.mpr hline),if_pos hline,if_neg (Nat.not_le.mpr (h.rows ▸ hc.2))]
      exact ⟨_,rfl,rfl,rfl,h.rows,h.width,h.height,rfl,⟨hline,hc.2⟩,hpic.1,hpic.2⟩
    · rw [if_pos (Nat.le_of_not_lt hline),if_neg hline]
      have hlast := settle_newLine hf h'
      rw [settle] at hlast
      simpa only [h.framebuffer, h.cols] using hlast

theorem writeStr_shows (hf : Fits font fb) {cs : List Char} (hd : ∀ c ∈ cs, Drawable font c)
    (h : Shows font fb m₀ p s) :
    ∃ p', cs.foldlM (fun p c => p.1.putChar font p.2 c) p = some p' ∧
      Shows font fb m₀ p' (cs.foldl Screen.putChar s) := by
  induction cs generalizing p s with
  | nil => exact ⟨p,rfl,h⟩
  | cons c cs ih =>
    obtain ⟨p₁,h₁,hs₁⟩ := putChar_shows hf h (hd c List.mem_cons_self)
    rw [List.foldlM_cons,h₁]
    exact ih (fun c' hc' => hd c' (List.mem_cons_of_mem _ hc')) hs₁

theorem exec_shows (hf : Fits font fb) {call : Call} (hd : ∀ c ∈ call.chars, Drawable font c)
    (h : Shows font fb m₀ p s) : ∃ p', exec font p call = some p' ∧ Shows font fb m₀ p' (s.exec call) := by
  have hc := h.cursor
  cases call with
  | putChar c => exact putChar_shows hf h (hd c List.mem_cons_self)
  | writeStr str => exact writeStr_shows hf hd h
  | setPos col row =>
    refine ⟨_,rfl,h.framebuffer,h.cols,h.rows,h.width,h.height,?_,?_,h.picture.1,h.picture.2⟩
    · simp only [setPos, Screen.exec, Nat.max_zero, h.cols, h.rows]
    · simp only [Screen.exec]
      omega
  | clear =>
    refine ⟨_,rfl,h.framebuffer,h.cols,h.rows,h.width,h.height,rfl,?_,?_⟩
    · simp only [Screen.exec, Screen.blank]
      omega
    · simp only [clear, h.framebuffer]
      exact h.picture.cleared (pitch_pos hf) _ _

theorem execAll_shows (hf : Fits font fb) {calls : List Call} (hd : ∀ call ∈ calls, ∀ c ∈ call.chars, Drawable font c)
    (h : Shows font fb m₀ p s) :
    ∃ p', execAll font p calls = some p' ∧ Shows font fb m₀ p' (s.execAll calls) := by
  induction calls generalizing p s with
  | nil => exact ⟨p,rfl,h⟩
  | cons call calls ih =>
    obtain ⟨p₁,h₁,hs₁⟩ := exec_shows hf (hd call List.mem_cons_self) h
    rw [execAll,List.foldlM_cons,h₁]
    exact ih (fun call' hm => hd call' (List.mem_cons_of_mem _ hm)) hs₁

end

/-- After any calls the terminal shows the screen that the same calls give: the cursor is in range, every byte of
the framebuffer is that of the rendered cells, and no other byte has changed. -/
theorem terminal_shows_screen (hf : Fits font fb) (m : Bytes) {calls : List Call}
    (hd : ∀ call ∈ calls, ∀ c ∈ call.chars, Drawable font c) :
    ∃ t m', execAll font (new font fb m) calls = some (t,m') ∧ t.pos.1 < t.cols ∧ t.pos.2 < t.rows ∧
      (let s := (Screen.blank (fb.width / charWidth) (fb.height / font.charHeight)).execAll calls
      t.pos = (s.col,s.row) ∧
        ∀ y b, y < fb.height → b < fb.pitch → m' (fb.place y b) = rowByte (fun x => s.pixel font x y) b) ∧
      ∀ a, a < fb.address ∨ fb.address + fb.pitch * fb.height ≤ a → m' a = m a := by
  obtain ⟨⟨t,m'⟩,hexec,h⟩ := execAll_shows hf hd (shows_new hf m)
  have hc := h.cursor
  have hpos : t.pos = _ := h.pos
  refine ⟨t,m',hexec,?_,?_,⟨hpos,h.picture.inside⟩,h.picture.outside⟩
  · rw [hpos]
    exact hc.1.trans_eq h.cols.symm
  · rw [hpos]
    exact hc.2.trans_eq h.rows.symm

/-- A font with one glyph, whose pixels are all set. -/
def blockFont : Font where
  charHeight := 8
  charHeight_pos := by decide
  glyph c := if c = '#' then some (List.replicate 8 255) else none

/-- A screen of two cells, with a row of pixels to spare and padding. -/
theorem terminal_shows_screen_sample :
    ∃ t m', execAll blockFont (new blockFont ⟨17,9,72,1000⟩ fun _ => 1) [.writeStr "#\n",.putChar '#'] = some (t,m') ∧
      t.pos = (1,0) ∧ m' (1000 + 1) = 170 ∧ m' (1000 + 64) = 0 ∧ m' (1000 + 8 * 72) = 0 ∧ m' 999 = 1 := by
  have hdraw : Drawable blockFont '#' := .inr ⟨_,rfl,rfl⟩
  obtain ⟨t,m',hexec,-,-,⟨hpos,hpicture⟩,houtside⟩ :=
    @terminal_shows_screen blockFont ⟨17,9,72,1000⟩ ⟨by decide,by decide,by decide⟩ (fun _ => 1)
      [.writeStr "#\n",.putChar '#'] (by
        intro call hcall c hc
        simp only [List.mem_cons, List.not_mem_nil, or_false] at hcall
        rcases hcall with rfl | rfl
        · have hcs : c ∈ ['#','\n'] := hc
          simp only [List.mem_cons, List.not_mem_nil, or_false] at hcs
          rcases hcs with rfl | rfl
          · exact hdraw
          · exact .inl rfl
        · rw [List.mem_singleton.mp hc]
          exact hdraw)
  refine ⟨t,m',hexec,hpos,?_,?_,?_,houtside 999 (by decide)⟩
  · exact (hpicture 0 1 (by decide) (by decide)).trans (by decide +kernel)
  · exact (hpicture 0 64 (by decide) (by decide)).trans (by decide +kernel)
  · exact (hpicture 8 0 (by decide) (by decide)).trans (by decide +kernel)

end Terminal

end HeineOS
