import HeineOS.Device.Console

/-! The framebuffer is shared by the terminal, by the timer, and by programs that lock it for themselves and draw
pictures on it. -/
namespace HeineOS.Console
open Lib Protocol Terminal

section
variable {font : Font} {fb : Framebuffer}

private theorem drawLines_total {charPixels : List UInt8} (x y fgColor bgColor : Nat) {n : Nat}
    (h : n ≤ charPixels.length) (m : Bytes) : ∃ m', (List.range n).foldlM (fun m yOffset =>
      charPixels[yOffset]?.map fun pixels => fb.drawLine fgColor bgColor (y + yOffset) pixels m x) m = some m' := by
  induction n with
  | zero => exact ⟨m,rfl⟩
  | succ n ih =>
    obtain ⟨m',hm'⟩ := ih (Nat.le_of_succ_le h)
    simp only [List.range_succ, List.foldlM_append, hm', Option.bind_eq_bind, Option.bind_some, List.foldlM_cons,
      List.foldlM_nil, List.getElem?_eq_getElem h, Option.map_some]
    exact ⟨_,rfl⟩

/-- A character with a glyph is drawn, wherever it is, and so is the end of a line. -/
private theorem drawChar_total {c : Char} {charPixels : List UInt8} (hglyph : font.glyph c = some charPixels)
    (hlen : charPixels.length = font.charHeight) (m : Bytes) (x y fgColor bgColor : Nat) :
    ∃ m', fb.drawChar font m c x y fgColor bgColor = some m' := by
  rw [Framebuffer.drawChar]
  split
  · exact ⟨m,rfl⟩
  · rw [hglyph]
    exact drawLines_total x y fgColor bgColor hlen.ge m

theorem Edit.total {e : Edit} (hd : e.Drawable font) (p : Terminal × Bytes) : ∃ p', e.run font p = some p' := by
  cases e with
  | draw c =>
    by_cases hnl : c = '\n'
    · exact ⟨p,if_neg (not_not.mpr hnl)⟩
    · obtain ⟨charPixels,hglyph,hlen⟩ := hd.resolve_left hnl
      obtain ⟨m,hm⟩ := @drawChar_total font p.1.framebuffer c charPixels hglyph hlen p.2
        (p.1.pos.1 * Framebuffer.charWidth) (p.1.pos.2 * font.charHeight) defaultFgColor defaultBgColor
      exact ⟨_,by rw [Edit.run,if_pos hnl,hm]; rfl⟩
  | wrap c | scroll | setPos col row | clear | home => exact ⟨_,rfl⟩

/-- The handler of the timer does not panic over the spinner. -/
theorem tick_total (hspinner : ∀ ch ∈ Pit.SPINNER_CHARS, Terminal.Drawable font ch) (s : Shared) :
    ∃ s', tick font s = some s' ∧ s'.terminalLocked = s.terminalLocked ∧ s'.framebufferLocked = s.framebufferLocked := by
  rw [tick]
  split
  · exact ⟨_,rfl,rfl,rfl⟩
  · rename_i ch hch
    split
    · exact ⟨_,rfl,rfl,rfl⟩
    · obtain ⟨charPixels,hglyph,hlen⟩ := spinner_glyph hspinner (mem_trigger hch)
      obtain ⟨m,hm⟩ := @drawChar_total font s.terminal.framebuffer ch charPixels hglyph hlen s.memory 768 16 white
        Framebuffer.black
      rw [drawSpinner,hm]
      exact ⟨_,rfl,rfl,rfl⟩

end

/-- What the contexts of the terminal have in common with the others. `picture`: one of the others holds the lock of the
framebuffer. -/
structure Display where
  shared : Shared
  picture : Bool

/-- The timer, and the contexts that draw pictures: they lock the framebuffer, draw, and unlock it. -/
inductive Other where
  | timer
  | lockFramebuffer
  | draw (f : Bytes → Bytes)
  | unlockFramebuffer

section
variable (font : Font) {ι : Type}

def Display.other (s : Display) : Other → Option Display
  | .timer => (tick font s.shared).map fun shared => { s with shared }
  | .lockFramebuffer =>
    if s.shared.framebufferLocked then none else some ⟨{ s.shared with framebufferLocked := true },true⟩
  | .draw f => if s.picture then some ⟨{ s.shared with memory := f s.shared.memory },true⟩ else none
  | .unlockFramebuffer => if s.picture then some ⟨{ s.shared with framebufferLocked := false },false⟩ else none

variable (fb : Framebuffer) (m₀ : Bytes) (jobs : ι → List (List Call))

end

/-- The lock of the framebuffer is taken by a picture, or by the context that is within an action. -/
def Stage.Holds (s : Display) : Stage → Prop
  | .between job left => (∃ part, part ++ left = job.flatMap actionsOf) ∧ s.shared.framebufferLocked = s.picture
  | .within job a did todo left =>
    (∃ part, part ++ a :: left = job.flatMap actionsOf) ∧ did ++ todo = a.edits ∧ s.shared.framebufferLocked = true ∧
      s.picture = false

def Shares {ι : Type} (jobs : ι → List (List Call)) (s : Display) (v : ι → Local) : Prop :=
  ∃ done, Working s.shared.terminalLocked (s.shared.terminalLocked = false ∧ s.shared.framebufferLocked = s.picture)
    (Stage.Holds s) Stage.job jobs done v

section
variable {ι : Type} {font : Font} {jobs : ι → List (List Call)} {s s' : Display} {v : ι → Local} {c : ι}

namespace Shares

/-- The locks stay as they are. -/
private theorem same (h : Shares jobs s v) (hterminal : s'.shared.terminalLocked = s.shared.terminalLocked)
    (hframebuffer : s'.shared.framebufferLocked = s.shared.framebufferLocked) (hpicture : s'.picture = s.picture) :
    Shares jobs s' v := by
  obtain ⟨done,h⟩ := h
  refine ⟨done,?_⟩
  rw [hterminal,hframebuffer,hpicture]
  refine h.mono ?_ id
  rintro (⟨job,left⟩ | ⟨job,a,did,todo,left⟩) hat
  · exact ⟨hat.1,by rw [hframebuffer,hpicture]; exact hat.2⟩
  · exact ⟨hat.1,hat.2.1,by rw [hframebuffer]; exact hat.2.2.1,by rw [hpicture]; exact hat.2.2.2⟩

/-- A picture takes the lock of the framebuffer or gives it back: it is free before and after, or no context is within
an action. -/
private theorem turn (h : Shares jobs s v) {b : Bool} (hother : s.shared.framebufferLocked = s.picture) :
    Shares jobs ⟨{ s.shared with framebufferLocked := b },b⟩ v := by
  obtain ⟨done,h⟩ := h
  refine ⟨done,h.mono ?_ fun hrest => ⟨hrest.1,rfl⟩⟩
  rintro (⟨job,left⟩ | ⟨job,a,did,todo,left⟩) hat
  · exact ⟨hat.1,rfl⟩
  · have hlocked := hat.2.2.1
    rw [hother,hat.2.2.2] at hlocked
    cases hlocked

/-- While a picture is drawn the lock is taken. -/
private theorem picture_locked (h : Shares jobs s v) (hpicture : s.picture = true) :
    s.shared.framebufferLocked = true := by
  obtain ⟨done,h⟩ := h
  apply h.guarded.data
  · rintro (⟨job,left⟩ | ⟨job,a,did,todo,left⟩) hat
    · exact hat.2.trans hpicture
    · exact hat.2.2.1
  · exact fun hrest => hrest.2.trans hpicture

private theorem env (hspinner : ∀ ch ∈ Pit.SPINNER_CHARS, Terminal.Drawable font ch) (h : Shares jobs s v) {e : Other}
    (he : s.other font e = some s') : Shares jobs s' v := by
  cases e with
  | timer =>
    obtain ⟨shared,htick,rfl⟩ := Option.map_eq_some_iff.mp he
    obtain ⟨shared',htick',hterminal,hframebuffer⟩ := tick_total hspinner s.shared
    obtain rfl := Option.some.inj (htick.symm.trans htick')
    exact h.same hterminal hframebuffer rfl
  | lockFramebuffer =>
    simp only [Display.other] at he
    split at he
    · cases he
    · rename_i hfree
      cases he
      have hnone : s.picture = false := by
        by_contra hpicture
        exact hfree (h.picture_locked (Bool.not_eq_false _ ▸ hpicture))
      exact h.turn (by rw [hnone]; exact Bool.not_eq_true _ ▸ hfree)
  | draw f =>
    simp only [Display.other] at he
    split at he
    · rename_i hpicture
      cases he
      exact h.same rfl rfl hpicture.symm
    · cases he
  | unlockFramebuffer =>
    simp only [Display.other] at he
    split at he
    · rename_i hpicture
      cases he
      exact h.turn (by rw [hpicture]; exact h.picture_locked hpicture)
    · cases he

variable [DecidableEq ι]

private theorem lockTerminal (h : Shares jobs s v) (ha : (v c).Allowed .lockTerminal)
    (hfree : s.shared.terminalLocked = false) :
    Shares jobs { s with shared := { s.shared with terminalLocked := true } }
      (Function.update v c ((v c).after .lockTerminal)) := by
  obtain ⟨done,h⟩ := h
  obtain ⟨-,job,js,htodo⟩ := ha
  have hafter : (v c).after .lockTerminal = ⟨some (.between job (job.flatMap actionsOf)),(v c).todo⟩ := by
    change Worker.mk ((v c).todo.head?.map fun job => Stage.between job (job.flatMap actionsOf)) (v c).todo = _
    rw [htodo]
    rfl
  rw [hfree] at h
  rw [hafter]
  exact ⟨done,h.acquire (g := .between job (job.flatMap actionsOf)) htodo fun hrest => ⟨⟨[],rfl⟩,hrest.2⟩⟩

private theorem unlockTerminal (h : Shares jobs s v) {job : List Call} (hc : (v c).stage = some (.between job [])) :
    Shares jobs { s with shared := { s.shared with terminalLocked := false } }
      (Function.update v c ((v c).after .unlockTerminal)) := by
  obtain ⟨done,h⟩ := h
  exact ⟨_,h.release hc ⟨rfl,(h.guarded.inside hc).2⟩⟩

private theorem lockFramebuffer (h : Shares jobs s v) (ha : (v c).Allowed .lockFramebuffer)
    (hfree : s.shared.framebufferLocked = false) :
    Shares jobs { s with shared := { s.shared with framebufferLocked := true } }
      (Function.update v c ((v c).after .lockFramebuffer)) := by
  obtain ⟨done,h⟩ := h
  obtain ⟨job,a,left,-,hc⟩ := ha
  obtain ⟨hpart,hpicture⟩ := h.guarded.inside hc
  simp only [Local.after, hc]
  exact ⟨done,h.advance hc rfl ⟨hpart,rfl,rfl,hpicture.symm.trans hfree⟩⟩

/-- The action is done. -/
private theorem complete (h : Shares jobs s v) {g : Stage} (hc : (v c).stage = some g) {part left : List Action}
    {a : Action} (hpart : part ++ a :: left = g.job.flatMap actionsOf)
    (hterminal : s'.shared.terminalLocked = s.shared.terminalLocked)
    (hframebuffer : s'.shared.framebufferLocked = s'.picture) :
    Shares jobs s' (Function.update v c ⟨some (.between g.job left),(v c).todo⟩) := by
  obtain ⟨done,h⟩ := h
  refine ⟨done,?_⟩
  rw [hterminal]
  refine h.advance hc rfl ⟨⟨part ++ [a],?_⟩,hframebuffer⟩
  rw [List.append_assoc]
  exact hpart

private theorem unlockFramebuffer (h : Shares jobs s v) (ha : (v c).Allowed .unlockFramebuffer) :
    Shares jobs { s with shared := { s.shared with framebufferLocked := false } }
      (Function.update v c ((v c).after .unlockFramebuffer)) := by
  obtain ⟨job,a,did,left,hc⟩ := ha
  obtain ⟨done,hworking⟩ := id h
  obtain ⟨⟨part,hpart⟩,-,-,hpicture⟩ := hworking.guarded.inside hc
  simp only [Local.after, hc]
  exact h.complete hc hpart rfl hpicture.symm

private theorem edit (h : Shares jobs s v) {e : Edit} (ha : (v c).Allowed (.edit e)) (p : Terminal × Bytes) :
    Shares jobs { s with shared := { s.shared with terminal := p.1, memory := p.2 } }
      (Function.update v c ((v c).after (.edit e))) := by
  obtain ⟨done,hworking⟩ := id h
  rcases ha with ⟨job,a,left,-,-,hc⟩ | ⟨job,a,did,todo,left,hc⟩
  · obtain ⟨⟨part,hpart⟩,hpicture⟩ := hworking.guarded.inside hc
    simp only [Local.after, hc]
    exact h.complete hc hpart rfl hpicture
  · obtain ⟨hpart,hedits,hlocked,hpicture⟩ := hworking.guarded.inside hc
    simp only [Local.after, hc]
    refine ⟨done,hworking.advance hc rfl ⟨hpart,?_,hlocked,hpicture⟩⟩
    rw [List.append_assoc]
    exact hedits

end Shares

variable {fb : Framebuffer} {m₀ : Bytes}

variable [DecidableEq ι]

end

end HeineOS.Console
