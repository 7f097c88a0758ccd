import HeineOS.Lib.Controller

/-! The driver of the interrupt controllers: which lines are forwarded after any calls of it. -/
namespace HeineOS.Pic
open Lib

inductive PicRegister where
  | command1
  | command2
  | data1
  | data2

def PicRegister.port : PicRegister → BitVec 16
  | command1 => 0x20
  | command2 => 0xa0
  | data1 => 0x21
  | data2 => 0xa1

def PicCommand.initialize : BitVec 8 := 0x11

inductive Irq where
  | timer
  | keyboard
  | cascade
  | com2
  | com1
  | lpt2
  | floppy
  | lpt1
  | rtc
  | free1
  | free2
  | free3
  | mouse
  | fpu
  | primaryAta
  | secondaryAta
  deriving DecidableEq, Repr

def Irq.toNat (irq : Irq) : Nat := irq.ctorIdx

def init (p : Controller) : Controller :=
  let p := p.outb PicRegister.command1.port PicCommand.initialize
  let p := p.outb PicRegister.command2.port PicCommand.initialize
  let p := p.outb PicRegister.data1.port 32
  let p := p.outb PicRegister.data2.port 40
  let p := p.outb PicRegister.data1.port 0x04
  let p := p.outb PicRegister.data2.port 0x02
  let p := p.outb PicRegister.data1.port 0x03
  let p := p.outb PicRegister.data2.port 0x03
  let p := p.outb PicRegister.data1.port 0xfb
  p.outb PicRegister.data2.port 0xff

/-- The port and the bit number of a line. -/
def select (irq : Irq) : PicRegister × Nat :=
  if irq.toNat < 8 then (.data1,irq.toNat) else (.data2,irq.toNat - 8)

def allow (p : Controller) (irq : Irq) : Controller :=
  let (register,irqNum) := select irq
  let mask : BitVec 8 := 1 <<< irqNum
  let current := p.inb register.port
  p.outb register.port (current &&& ~~~mask)

def forbid (p : Controller) (irq : Irq) : Controller :=
  let (register,irqNum) := select irq
  let mask : BitVec 8 := 1 <<< irqNum
  let current := p.inb register.port
  p.outb register.port (current ||| mask)

def status (p : Controller) (irq : Irq) : Bool :=
  let (register,irqNum) := select irq
  let mask : BitVec 8 := 1 <<< irqNum
  let current := p.inb register.port
  current &&& mask = 0

/-- A call of `allow` or `forbid`. -/
structure Call where
  irq : Irq
  allows : Bool
  deriving DecidableEq, Repr

def Call.run (p : Controller) (call : Call) : Controller :=
  if call.allows then allow p call.irq else forbid p call.irq

/-- What the last call about each line has asked for; at first only the cascade is allowed. -/
def wanted (calls : List Call) : Irq → Bool :=
  calls.foldl (fun allowed call => Function.update allowed call.irq call.allows) fun irq => irq = .cascade

/-- A chip after the initialization sequence, with vectors from `offset` on. -/
def initialized (offset cascade mask : BitVec 8) : Chip := ⟨.ready,true,false,offset,cascade,3,mask⟩

/-- Initialized chips: the masks have the bits of the lines that are not allowed. -/
structure Tracks (p : Controller) (allowed : Irq → Bool) : Prop where
  master : p.master = initialized 32 4 p.master.mask
  slave : p.slave = initialized 40 2 p.slave.mask
  bit : ∀ irq, (p.inb (select irq).1.port).getLsbD (select irq).2 = !allowed irq

/-- Whatever the chips were doing before. -/
theorem tracks_init (p : Controller) : Tracks (init p) (wanted []) := by
  refine ⟨rfl,rfl,?_⟩
  intro irq
  change (Controller.inb ⟨initialized 32 4 0xfb,initialized 40 2 0xff⟩ _).getLsbD _ = _
  cases irq <;> decide

section
variable {p : Controller} {allowed : Irq → Bool}

theorem select_snd_lt (irq : Irq) : (select irq).2 < 8 := by
  cases irq <;> decide

/-- Two lines share a port and a bit only if they are the same line. -/
theorem select_inj {irq irq' : Irq} (hport : (select irq).1.port = (select irq').1.port)
    (hbit : (select irq).2 = (select irq').2) : irq = irq' := by
  revert hport hbit
  cases irq <;> cases irq' <;> decide

theorem select_data (irq : Irq) : (select irq).1.port = 0x21 ∨ (select irq).1.port = 0xa1 := by
  cases irq <;> decide

private theorem outb_data1 (h : Tracks p allowed) (mask : BitVec 8) :
    p.outb 0x21 mask = { p with master := initialized 32 4 mask } := by
  change { p with master := p.master.data mask } = _
  rw [h.master]
  rfl

private theorem outb_data2 (h : Tracks p allowed) (mask : BitVec 8) :
    p.outb 0xa1 mask = { p with slave := initialized 40 2 mask } := by
  change { p with slave := p.slave.data mask } = _
  rw [h.slave]
  rfl

/-- A new mask on one of the data ports. -/
private theorem tracks_mask (h : Tracks p allowed) (irq : Irq) (b : Bool) {mask : BitVec 8}
    (hmask : ∀ j, mask.getLsbD j = if j = (select irq).2 then !b else (p.inb (select irq).1.port).getLsbD j) :
    Tracks (p.outb (select irq).1.port mask) (Function.update allowed irq b) := by
  have hsame : ∀ irq', (select irq').1.port = (select irq).1.port →
      mask.getLsbD (select irq').2 = !Function.update allowed irq b irq' := by
    intro irq' hport
    rw [hmask]
    by_cases he : irq' = irq
    · rw [he,if_pos rfl,Function.update_self]
    · rw [if_neg fun hbit => he (select_inj hport hbit),Function.update_of_ne he,← hport,h.bit]
  have hother : ∀ irq', (select irq').1.port ≠ (select irq).1.port →
      (p.inb (select irq').1.port).getLsbD (select irq').2 = !Function.update allowed irq b irq' := by
    intro irq' hport
    rw [Function.update_of_ne (by rintro rfl; exact hport rfl),h.bit]
  rcases select_data irq with hirq | hirq
  · rw [hirq,outb_data1 h]
    refine ⟨rfl,h.slave,?_⟩
    intro irq'
    rcases select_data irq' with hport | hport
    · rw [hport]
      exact hsame irq' (hport.trans hirq.symm)
    · have hkeep := hother irq' (by rw [hport,hirq]; decide)
      rw [hport] at hkeep ⊢
      exact hkeep
  · rw [hirq,outb_data2 h]
    refine ⟨h.master,rfl,?_⟩
    intro irq'
    rcases select_data irq' with hport | hport
    · have hkeep := hother irq' (by rw [hport,hirq]; decide)
      rw [hport] at hkeep ⊢
      exact hkeep
    · rw [hport]
      exact hsame irq' (hport.trans hirq.symm)

theorem tracks_allow (h : Tracks p allowed) (irq : Irq) :
    Tracks (allow p irq) (Function.update allowed irq true) :=
  tracks_mask h irq true fun j => getLsbD_clear _ _ j

theorem tracks_forbid (h : Tracks p allowed) (irq : Irq) :
    Tracks (forbid p irq) (Function.update allowed irq false) :=
  tracks_mask h irq false fun j => getLsbD_set _ (select_snd_lt irq) j

theorem tracks_call (h : Tracks p allowed) (call : Call) :
    Tracks (call.run p) (Function.update allowed call.irq call.allows) := by
  obtain ⟨irq,allows⟩ := call
  cases allows with
  | true => exact tracks_allow h irq
  | false => exact tracks_forbid h irq

theorem tracks_run (h : Tracks p allowed) (calls : List Call) :
    Tracks (calls.foldl Call.run p)
      (calls.foldl (fun allowed call => Function.update allowed call.irq call.allows) allowed) := by
  induction calls generalizing p allowed with
  | nil => exact h
  | cons call calls ih => exact ih (tracks_call h call)

/-- `status` reads what is allowed. -/
theorem status_eq (h : Tracks p allowed) (irq : Irq) : status p irq = allowed irq := by
  have hall : p.inb (select irq).1.port &&& (1#8) <<< (select irq).2 = 0 ↔
      (p.inb (select irq).1.port).getLsbD (select irq).2 = false := by
    rw [BitVec.eq_of_getLsbD_eq_iff]
    simp only [BitVec.getLsbD_and, getLsbD_one_shiftLeft]
    constructor
    · intro hzero
      have hself := hzero (select irq).2 (select_snd_lt irq)
      simpa [select_snd_lt irq] using hself
    · intro hself j _
      by_cases he : j = (select irq).2
      · rw [he,hself]
        simp
      · simp [he]
  change decide (p.inb (select irq).1.port &&& (1#8) <<< (select irq).2 = 0) = _
  rw [Bool.eq_iff_iff,decide_eq_true_eq,hall,h.bit,Bool.not_eq_false']

/-- What the controllers make of a request on a line. -/
theorem vector_eq (h : Tracks p allowed) (irq : Irq) :
    p.vector irq.toNat =
      if irq ≠ .cascade ∧ allowed irq = true ∧ (8 ≤ irq.toNat → allowed .cascade = true) then some (32 + irq.toNat)
      else none := by
  have hbit := h.bit irq
  have hcascade : p.master.mask.getLsbD 2 = !allowed .cascade := h.bit .cascade
  by_cases hlt : irq.toNat < 8
  · have hline : (4 : BitVec 8).getLsbD irq.toNat = decide (irq = .cascade) := by
      revert hlt
      cases irq <;> decide
    rw [select,if_pos hlt] at hbit
    change p.master.mask.getLsbD irq.toNat = _ at hbit
    rw [Controller.vector,if_pos hlt,h.master]
    simp only [initialized, Chip.Forwards, hline, hbit, decide_eq_true_eq, true_and, Bool.not_eq_false', ne_eq]
    by_cases hc : irq = .cascade
    · rw [if_pos hc,if_neg fun hn => hn.1 hc]
    · by_cases ha : allowed irq = true
      · rw [if_neg hc,if_pos ha,if_pos ⟨hc,ha,fun h8 => absurd hlt (Nat.not_lt_of_le h8)⟩]
        rfl
      · rw [if_neg hc,if_neg ha,if_neg fun hn => ha hn.2.1]
  · have hc : irq ≠ .cascade := by
      rintro rfl
      exact hlt (by decide)
    rw [select,if_neg hlt] at hbit
    change p.slave.mask.getLsbD (irq.toNat - 8) = _ at hbit
    rw [Controller.vector,if_neg hlt,h.master,h.slave]
    have hslot : (2 : BitVec 8).toNat % 8 = 2 := by decide
    have hwired : (4 : BitVec 8).getLsbD 2 = true := by decide
    simp only [initialized, Chip.Forwards, hslot, hwired, hbit, hcascade, true_and, Bool.not_eq_false']
    by_cases ha : allowed irq = true
    · by_cases hca : allowed .cascade = true
      · rw [if_pos ⟨hca,ha⟩,if_pos ⟨hc,ha,fun _ => hca⟩]
        change some (40 + (irq.toNat - 8)) = _
        rw [show 40 + (irq.toNat - 8) = 32 + irq.toNat by omega]
      · rw [if_neg fun hn => hca hn.1,if_neg fun hn => hca (hn.2.2 (Nat.le_of_not_lt hlt))]
    · rw [if_neg fun hn => ha hn.2,if_neg fun hn => ha hn.2.1]

end

/-- After the initialization and any calls of `allow` and `forbid`, whatever state the chips were in before, a
request is forwarded exactly if its line was allowed last, and for the lines of the second chip also that of the
cascade, with the vector 32 above the number of the line; and `status` tells what was asked for last. -/
theorem forwarded_iff (p : Controller) (calls : List Call) (irq : Irq) :
    (calls.foldl Call.run (init p)).vector irq.toNat =
        (if irq ≠ .cascade ∧ wanted calls irq = true ∧ (8 ≤ irq.toNat → wanted calls .cascade = true) then
          some (32 + irq.toNat)
        else none) ∧
      status (calls.foldl Call.run (init p)) irq = wanted calls irq :=
  ⟨vector_eq (tracks_run (tracks_init p) calls) irq,status_eq (tracks_run (tracks_init p) calls) irq⟩

end HeineOS.Pic
