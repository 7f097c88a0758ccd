import HeineOS.Device.Terminal

/-! The terminal in the build with the font of 8x8 pixels: which characters have an entry in its table. -/
namespace HeineOS
open Lib

namespace Font8x8

def CHAR_WIDTH : Nat := 8
def CHAR_HEIGHT : Nat := 8

/-- The characters, each with its rows of pixels from the top one in the highest byte. -/
def ROWS : List Nat := [
  0x0000000000000000,0x7e81a581bd99817e,0x7effdbffc3e7ff7e,0x6cfefefe7c381000,0x10387cfe7c381000,0x387c38fefed61038,
  0x10387cfefe7c1038,0x0000183c3c180000,0xffffe7c3c3e7ffff,0x003c664242663c00,0xffc399bdbd99c3ff,0x0f070f7dcccccc78,
  0x3c6666663c187e18,0x3f333f303070f0e0,0x7f637f636367e6c0,0x18db3ce7e73cdb18,0x80e0f8fef8e08000,0x020e3efe3e0e0200,
  0x183c7e18187e3c18,0x6666666666006600,0x7fdbdb7b1b1b1b00,0x3e613c66663c867c,0x000000007e7e7e00,0x183c7e187e3c18ff,
  0x183c7e1818181800,0x181818187e3c1800,0x00180cfe0c180000,0x003060fe60300000,0x0000c0c0c0fe0000,0x002466ff66240000,
  0x00183c7effff0000,0x00ffff7e3c180000,0x0000000000000000,0x183c3c1818001800,0x6666240000000000,0x6c6cfe6cfe6c6c00,
  0x183e603c067c1800,0x00c6cc183066c600,0x386c3876dccc7600,0x1818300000000000,0x0c18303030180c00,0x30180c0c0c183000,
  0x00663cff3c660000,0x0018187e18180000,0x0000000000181830,0x0000007e00000000,0x0000000000181800,0x060c183060c08000,
  0x386cc6d6c66c3800,0x1838181818187e00,0x7cc6061c3066fe00,0x7cc6063c06c67c00,0x1c3c6cccfe0c1e00,0xfec0c0fc06c67c00,
  0x3860c0fcc6c67c00,0xfec60c1830303000,0x7cc6c67cc6c67c00,0x7cc6c67e060c7800,0x0018180000181800,0x0018180000181830,
  0x060c1830180c0600,0x00007e00007e0000,0x6030180c18306000,0x7cc60c1818001800,0x7cc6dededec07800,0x386cc6fec6c6c600,
  0xfc66667c6666fc00,0x3c66c0c0c0663c00,0xf86c6666666cf800,0xfe6268786862fe00,0xfe6268786860f000,0x3c66c0c0ce663a00,
  0xc6c6c6fec6c6c600,0x3c18181818183c00,0x1e0c0c0ccccc7800,0xe6666c786c66e600,0xf06060606266fe00,0xc6eefefed6c6c600,
  0xc6e6f6decec6c600,0x7cc6c6c6c6c67c00,0xfc66667c6060f000,0x7cc6c6c6c6ce7c0e,0xfc66667c6c66e600,0x3c6630180c663c00,
  0x7e7e5a1818183c00,0xc6c6c6c6c6c67c00,0xc6c6c6c6c66c3800,0xc6c6c6d6d6fe6c00,0xc6c66c386cc6c600,0x6666663c18183c00,
  0xfec68c183266fe00,0x3c30303030303c00,0xc06030180c060200,0x3c0c0c0c0c0c3c00,0x10386cc600000000,0x00000000000000ff,
  0x30180c0000000000,0x0000780c7ccc7600,0xe0607c666666dc00,0x00007cc6c0c67c00,0x1c0c7ccccccc7600,0x00007cc6fec07c00,
  0x3c6660f86060f000,0x000076cccc7c0cf8,0xe0606c766666e600,0x1800381818183c00,0x060006060666663c,0xe060666c786ce600,
  0x3818181818183c00,0x0000ecfed6d6d600,0x0000dc6666666600,0x00007cc6c6c67c00,0x0000dc66667c60f0,0x000076cccc7c0c1e,
  0x0000dc766060f000,0x00007ec07c06fc00,0x3030fc3030361c00,0x0000cccccccc7600,0x0000c6c6c66c3800,0x0000c6d6d6fe6c00,
  0x0000c66c386cc600,0x0000c6c6c67e06fc,0x00007e4c18327e00,0x0e18187018180e00,0x1818181818181800,0x7018180e18187000,
  0x76dc000000000000,0x0010386cc6c6fe00,0x7cc6c0c0c67c0c78,0xcc00cccccccc7600,0x0c187cc6fec07c00,0x7c82780c7ccc7600,
  0xc600780c7ccc7600,0x3018780c7ccc7600,0x3030780c7ccc7600,0x00007ec0c07e0c38,0x7c827cc6fec07c00,0xc6007cc6fec07c00,
  0x30187cc6fec07c00,0x6600381818183c00,0x7c82381818183c00,0x3018003818183c00,0xc6386cc6fec6c600,0x386c7cc6fec6c600,
  0x1830fec0f8c0fe00,0x00007e187ed87e00,0x3e6cccfeccccce00,0x7c827cc6c6c67c00,0xc6007cc6c6c67c00,0x30187cc6c6c67c00,
  0x788400cccccc7600,0x6030cccccccc7600,0xc600c6c6c67e06fc,0xc6386cc6c66c3800,0xc600c6c6c6c67c00,0x18187ec0c07e1818,
  0x386c64f06066fc00,0x66663c7e187e1818,0xf8ccccfac6cfc6c7,0x0e1b183c18d87000,0x1830780c7ccc7600,0x0c18003818183c00,
  0x0c187cc6c6c67c00,0x1830cccccccc7600,0x76dc00dc66666600,0x76dc00e6f6dece00,0x3c6c6c3e007e0000,0x386c6c38007c0000,
  0x1800181830633e00,0x000000fec0c00000,0x000000fe06060000,0x63e66c7e3366cc0f,0x63e66c7a366adf06,0x180018183c3c1800,
  0x003366cc66330000,0x00cc663366cc0000,0x2288228822882288,0x55aa55aa55aa55aa,0x77dd77dd77dd77dd,0x1818181818181818,
  0x18181818f8181818,0x1818f818f8181818,0x36363636f6363636,0x00000000fe363636,0x0000f818f8181818,0x3636f606f6363636,
  0x3636363636363636,0x0000fe06f6363636,0x3636f606fe000000,0x36363636fe000000,0x1818f818f8000000,0x00000000f8181818,
  0x181818181f000000,0x18181818ff000000,0x00000000ff181818,0x181818181f181818,0x00000000ff000000,0x18181818ff181818,
  0x18181f181f181818,0x3636363637363636,0x363637303f000000,0x00003f3037363636,0x3636f700ff000000,0x0000ff00f7363636,
  0x3636373037363636,0x0000ff00ff000000,0x3636f700f7363636,0x1818ff00ff000000,0x36363636ff000000,0x0000ff00ff181818,
  0x00000000ff363636,0x363636363f000000,0x18181f181f000000,0x00001f181f181818,0x000000003f363636,0x36363636ff363636,
  0x1818ff18ff181818,0x18181818f8000000,0x000000001f181818,0xffffffffffffffff,0x00000000ffffffff,0xf0f0f0f0f0f0f0f0,
  0x0f0f0f0f0f0f0f0f,0xffffffff00000000,0x000076dcc8dc7600,0x78ccccd8ccc6cc00,0xfec6c0c0c0c0c000,0x0000fe6c6c6c6c00,
  0xfec6603060c6fe00,0x00007ed8d8d87000,0x0000666666667cc0,0x0076dc1818181800,0x7e183c66663c187e,0x386cc6fec66c3800,
  0x386cc6c66c6cee00,0x0e180c3e66663c00,0x00007edbdb7e0000,0x060c7edbdb7e60c0,0x1e30607e60301e00,0x007cc6c6c6c6c600,
  0x00fe00fe00fe0000,0x18187e1818007e00,0x30180c1830007e00,0x0c1830180c007e00,0x0e1b1b1818181818,0x1818181818d8d870,
  0x0018007e00180000,0x0076dc0076dc0000,0x386c6c3800000000,0x0000001818000000,0x0000001800000000,0x0f0c0c0cec6c3c1c,
  0x6c36363636000000,0x780c18307c000000,0x00003c3c3c3c0000,0x0000000000000000]

def bytes (rows : Nat) : List UInt8 := [56,48,40,32,24,16,8,0].map fun shift => UInt8.ofNat (rows >>> shift)

def DATA : List UInt8 := ROWS.flatMap bytes

theorem data_length : DATA.length = 2048 := by
  have hbytes (rows : Nat) : (bytes rows).length = 8 := rfl
  have hrows : ROWS.length = 256 := by decide +kernel
  simp only [DATA, List.length_flatMap, hbytes, List.map_const', hrows, List.sum_replicate_nat]

/-- `none` when the range is not within the table. -/
def getCharPixels (c : Char) : Option (List UInt8) :=
  let charMemSize := (CHAR_WIDTH + (8 >>> 1)) / 8 * CHAR_HEIGHT
  let start := charMemSize * c.toNat
  let stop := start + charMemSize
  if stop ≤ DATA.length then some ((DATA.drop start).take charMemSize) else none

example : getCharPixels 'A' = some [0x38,0x6c,0xc6,0xfe,0xc6,0xc6,0xc6,0x00] := by decide +kernel

theorem getCharPixels_eq (c : Char) : getCharPixels c =
    if 8 * c.toNat + 8 ≤ 2048 then some ((DATA.drop (8 * c.toNat)).take 8) else none := by
  have hsize : (CHAR_WIDTH + (8 >>> 1)) / 8 * CHAR_HEIGHT = 8 := rfl
  simp only [getCharPixels, hsize, data_length]

/-- The table ends behind the character 255. -/
theorem getCharPixels_eq_none_iff {c : Char} : getCharPixels c = none ↔ 256 ≤ c.toNat := by
  simp only [getCharPixels_eq, ite_eq_right_iff, reduceCtorEq, imp_false]
  omega

theorem length_getCharPixels {c : Char} {charPixels : List UInt8} (h : getCharPixels c = some charPixels) :
    charPixels.length = CHAR_HEIGHT := by
  rw [getCharPixels_eq] at h
  split at h
  · cases h
    rw [List.length_take,List.length_drop,data_length,CHAR_HEIGHT]
    omega
  · cases h

end Font8x8

/-- The built-in font. A character without an entry has no rows, so that drawing it is out of range. -/
def font8x8 : Font where
  charHeight := Font8x8.CHAR_HEIGHT
  charHeight_pos := by decide
  glyph c := some ((Font8x8.getCharPixels c).getD [])

namespace Framebuffer

/-- `draw_char` with this font: `none` when an index is out of range. -/
def drawChar8x8 (fb : Framebuffer) (m : Bytes) (c : Char) (x y fgColor bgColor : Nat) : Option Bytes :=
  if x + Font8x8.CHAR_WIDTH > fb.width ∨ y + Font8x8.CHAR_HEIGHT > fb.height then some m
  else do
    let charPixels ← Font8x8.getCharPixels c
    (List.range Font8x8.CHAR_HEIGHT).foldlM (fun m yOffset =>
      charPixels[yOffset]?.map fun pixels => fb.drawLine fgColor bgColor (y + yOffset) pixels m x) m

variable {fb : Framebuffer} {m : Bytes} {c : Char} {x y fgColor bgColor : Nat}

private theorem drawLines_isSome {charPixels : List UInt8} {n : Nat} (hn : n ≤ charPixels.length) :
    ((List.range n).foldlM (fun m yOffset =>
      charPixels[yOffset]?.map fun pixels => fb.drawLine fgColor bgColor (y + yOffset) pixels m x) m).isSome := by
  induction n with
  | zero => rfl
  | succ n ih =>
    obtain ⟨m₁,h₁⟩ := Option.isSome_iff_exists.mp (ih (by omega))
    rw [List.range_succ,List.foldlM_append,h₁]
    simp [List.getElem?_eq_getElem hn]

/-- The font as it is for the terminal draws as the source does. -/
theorem drawChar_font8x8 : fb.drawChar font8x8 m c x y fgColor bgColor = fb.drawChar8x8 m c x y fgColor bgColor := by
  rw [drawChar,drawChar8x8]
  cases hc : Font8x8.getCharPixels c with
  | none =>
    simp only [font8x8, hc]
    rfl
  | some charPixels =>
    simp only [font8x8, hc]
    rfl

/-- A character that fits on the screen is drawn exactly when the table has an entry for it. -/
theorem drawChar8x8_isSome_iff (hx : x + 8 ≤ fb.width) (hy : y + 8 ≤ fb.height) :
    (fb.drawChar8x8 m c x y fgColor bgColor).isSome ↔ c.toNat < 256 := by
  have hfit : ¬ (x + Font8x8.CHAR_WIDTH > fb.width ∨ y + Font8x8.CHAR_HEIGHT > fb.height) := by
    rw [Font8x8.CHAR_WIDTH,Font8x8.CHAR_HEIGHT]
    omega
  rw [drawChar8x8,if_neg hfit]
  cases hc : Font8x8.getCharPixels c with
  | none =>
    have hbig := Font8x8.getCharPixels_eq_none_iff.mp hc
    simp only [Option.bind_eq_bind, Option.bind_none]
    exact iff_of_false (by decide) (by omega)
  | some charPixels =>
    have hsmall : ¬ 256 ≤ c.toNat := by
      rw [← Font8x8.getCharPixels_eq_none_iff,hc]
      exact nofun
    exact iff_of_true (drawLines_isSome (Font8x8.length_getCharPixels hc).ge) (by omega)

end Framebuffer

namespace Terminal
open Framebuffer

/-- What is done to a terminal: its functions are called, or someone draws on its framebuffer. -/
inductive Use where
  | call (call : Call)
  | putCharColored (c : Char) (fgColor bgColor : Nat)
  | draw (m : Bytes)

def use (font : Font) (p : Terminal × Bytes) : Use → Option (Terminal × Bytes)
  | .call call => exec font p call
  | .putCharColored c fgColor bgColor => p.1.putCharColored font p.2 c fgColor bgColor
  | .draw m => some (p.1,m)

/-- Runs of a new terminal. -/
def system (font : Font) (fb : Framebuffer) : System (Terminal × Bytes) Use where
  init p := ∃ m, p = new font fb m
  step p u p' := use font p u = some p'

/-- The cursor is on the screen. -/
structure InRange (fb : Framebuffer) (t : Terminal) : Prop where
  framebuffer : t.framebuffer = fb
  cols : t.cols = fb.width / 8
  rows : t.rows = fb.height / 8
  pos : t.pos.1 < t.cols ∧ t.pos.2 < t.rows

section
variable {fb : Framebuffer} {t t' : Terminal} {m m' : Bytes} {c : Char} {fgColor bgColor : Nat}

private theorem cell_fits {n size : Nat} (h : n < size / 8) : n * 8 + 8 ≤ size := by omega

/-- At the cursor a character is drawn exactly when the table has an entry for it. -/
private theorem InRange.drawChar_isSome_iff (h : InRange fb t) :
    (t.framebuffer.drawChar font8x8 m c (t.pos.1 * charWidth) (t.pos.2 * font8x8.charHeight) fgColor bgColor).isSome ↔
      c.toNat < 256 := by
  obtain ⟨hcol,hrow⟩ := h.pos
  rw [h.cols] at hcol
  rw [h.rows] at hrow
  rw [h.framebuffer,drawChar_font8x8]
  exact drawChar8x8_isSome_iff (cell_fits hcol) (cell_fits hrow)

/-- The end of `put_char_colored`, which moves the cursor to the next line and scrolls. -/
private def moveOn (t : Terminal) (m : Bytes) (c : Char) : Terminal × Bytes :=
  let t := if t.pos.1 ≥ t.cols ∨ c = '\n' then { t with pos := (0,t.pos.2 + 1) } else t
  if t.pos.2 ≥ t.rows then ({ t with pos := (t.pos.1,t.rows - 1) },t.framebuffer.scrollUp font8x8 m 1)
  else (t,m)

private theorem putCharColored_eq :
    t.putCharColored font8x8 m c fgColor bgColor =
      (if c = '\n' then some (t,m)
      else (t.framebuffer.drawChar font8x8 m c (t.pos.1 * charWidth) (t.pos.2 * font8x8.charHeight) fgColor
        bgColor).map fun m => ({ t with pos := (t.pos.1 + 1,t.pos.2) },m)).map fun p => moveOn p.1 p.2 c := by
  rw [Terminal.putCharColored]
  by_cases hc : c = '\n'
  · rw [if_pos hc,if_neg (not_not_intro hc)]
    exact (apply_ite some _ _ _).symm
  · rw [if_neg hc,if_pos hc]
    dsimp only
    cases t.framebuffer.drawChar font8x8 m c (t.pos.1 * charWidth) (t.pos.2 * font8x8.charHeight) fgColor bgColor with
    | none => rfl
    | some m₁ => exact (apply_ite some _ _ _).symm

/-- A character is put on the screen exactly when the table has an entry for it. -/
theorem InRange.putCharColored_isSome_iff (h : InRange fb t) :
    (t.putCharColored font8x8 m c fgColor bgColor).isSome ↔ c.toNat < 256 := by
  rw [putCharColored_eq,Option.isSome_map]
  by_cases hc : c = '\n'
  · rw [if_pos hc,hc]
    exact iff_of_true rfl (by decide)
  · rw [if_neg hc,Option.isSome_map]
    exact h.drawChar_isSome_iff

private theorem InRange.moveOn (hfb : t.framebuffer = fb) (hcols : t.cols = fb.width / 8)
    (hrows : t.rows = fb.height / 8) (hcol : 0 < t.cols) (hrow : t.pos.2 < t.rows) : InRange fb (moveOn t m c).1 := by
  rw [Terminal.moveOn]
  by_cases hline : t.pos.1 ≥ t.cols ∨ c = '\n'
  · rw [if_pos hline]
    dsimp only
    split
    · exact ⟨hfb,hcols,hrows,hcol,by dsimp only; omega⟩
    · rename_i hlast
      exact ⟨hfb,hcols,hrows,hcol,Nat.lt_of_not_le hlast⟩
  · rw [if_neg hline,if_neg (Nat.not_le.mpr hrow)]
    exact ⟨hfb,hcols,hrows,Nat.lt_of_not_le fun hle => hline (.inl hle),hrow⟩

theorem InRange.putCharColored (h : InRange fb t)
    (hput : t.putCharColored font8x8 m c fgColor bgColor = some (t',m')) : InRange fb t' := by
  have hcol : 0 < t.cols := Nat.zero_lt_of_lt h.pos.1
  rw [putCharColored_eq,Option.map_eq_some_iff] at hput
  obtain ⟨p,hp,hmove⟩ := hput
  obtain ⟨rfl,rfl⟩ := Prod.mk.inj hmove
  split at hp
  · cases hp
    exact .moveOn h.framebuffer h.cols h.rows hcol h.pos.2
  · obtain ⟨_,_,rfl⟩ := Option.map_eq_some_iff.mp hp
    exact .moveOn h.framebuffer h.cols h.rows hcol h.pos.2

/-- A string is written exactly when the table has an entry for each of its characters. -/
theorem InRange.writeChars_isSome_iff (h : InRange fb t) (cs : List Char) :
    (cs.foldlM (fun (p : Terminal × Bytes) c => p.1.putChar font8x8 p.2 c) (t,m)).isSome ↔ ∀ c ∈ cs, c.toNat < 256 := by
  induction cs generalizing t m with
  | nil => exact iff_of_true rfl (by simp)
  | cons c cs ih =>
    have hput : (t.putCharColored font8x8 m c defaultFgColor defaultBgColor).isSome ↔ c.toNat < 256 :=
      h.putCharColored_isSome_iff
    rw [List.forall_mem_cons,List.foldlM_cons,← hput]
    cases hc : t.putCharColored font8x8 m c defaultFgColor defaultBgColor with
    | none =>
      have hnone : t.putChar font8x8 m c = none := hc
      simp [hnone]
    | some p₁ =>
      have hsome : t.putChar font8x8 m c = some p₁ := hc
      rw [hsome]
      simpa using ih (h.putCharColored hc)

theorem InRange.writeChars (h : InRange fb t) {cs : List Char}
    (hwrite : cs.foldlM (fun (p : Terminal × Bytes) c => p.1.putChar font8x8 p.2 c) (t,m) = some (t',m')) :
    InRange fb t' := by
  induction cs generalizing t m with
  | nil =>
    cases hwrite
    exact h
  | cons c cs ih =>
    rw [List.foldlM_cons,Option.bind_eq_bind,Option.bind_eq_some_iff] at hwrite
    obtain ⟨⟨t₁,m₁⟩,hput,hrest⟩ := hwrite
    exact ih (h.putCharColored hput) hrest

theorem InRange.use {u : Use} (h : InRange fb t) (hu : use font8x8 (t,m) u = some (t',m')) : InRange fb t' := by
  cases u with
  | putCharColored c fgColor bgColor => exact h.putCharColored hu
  | draw m =>
    cases hu
    exact h
  | call call =>
    cases call with
    | putChar c => exact h.putCharColored hu
    | writeStr s => exact h.writeChars hu
    | setPos col row =>
      cases hu
      obtain ⟨hcol,hrow⟩ := h.pos
      refine ⟨h.framebuffer,h.cols,h.rows,?_,?_⟩
      · simp only [setPos]
        omega
      · simp only [setPos]
        omega
    | clear =>
      cases hu
      exact ⟨h.framebuffer,h.cols,h.rows,Nat.zero_lt_of_lt h.pos.1,Nat.zero_lt_of_lt h.pos.2⟩

end

/-- On every terminal with a row and a column, wherever its cursor has been moved, a string is written without an index
out of range exactly when its characters are those of the table. -/
theorem writeStr_in_range_iff {fb : Framebuffer} (hcols : 0 < fb.width / Font8x8.CHAR_WIDTH)
    (hrows : 0 < fb.height / Font8x8.CHAR_HEIGHT) {p : Terminal × Bytes} (hp : (system font8x8 fb).Reachable p)
    (s : String) : (p.1.writeStr font8x8 p.2 s).isSome ↔ ∀ c ∈ s.toList, c.toNat < 256 := by
  have hin : InRange fb p.1 := by
    refine hp.invariant (P := fun p => InRange fb p.1) ?_ ?_
    · intro p hinit
      obtain ⟨m,rfl⟩ := hinit
      exact ⟨rfl,rfl,rfl,hcols,hrows⟩
    · intro p u p' h hstep
      exact h.use hstep
  exact hin.writeChars_isSome_iff s.toList

/-- A screen of one cell. -/
theorem writeStr_in_range_cell : ∃ p, (system font8x8 ⟨8,8,32,0⟩).Reachable p ∧
    (p.1.writeStr font8x8 p.2 "ok\n").isSome := by
  have hp : (system font8x8 ⟨8,8,32,0⟩).Reachable (new font8x8 ⟨8,8,32,0⟩ fun _ => 0) := .of_init ⟨_,rfl⟩
  have hcs : ∀ c ∈ ['o','k','\n'], c.toNat < 256 := by simp
  exact ⟨_,hp,(writeStr_in_range_iff (by decide) (by decide) hp "ok\n").mpr hcs⟩

/-- The table ends before the euro sign. -/
theorem euro_out_of_range : ∃ p, (system font8x8 ⟨8,8,32,0⟩).Reachable p ∧
    (p.1.writeStr font8x8 p.2 "€").isSome = false := by
  refine ⟨new font8x8 ⟨8,8,32,0⟩ fun _ => 0,.of_init ⟨_,rfl⟩,?_⟩
  decide +kernel

end Terminal

end HeineOS
