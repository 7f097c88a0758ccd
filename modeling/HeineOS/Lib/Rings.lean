import HeineOS.Lib.Cpu

/-! Protection rings of a 64-bit processor: gates and segments as they lie in memory, the entry into the kernel
through a gate and the return from it. -/
namespace HeineOS.Lib

/-- An entry of the interrupt descriptor table; `kind` is 14 for an interrupt gate and 15 for a trap gate. -/
structure Gate where
  offset : Nat
  selector : Nat
  ist : Nat
  kind : Nat
  dpl : Nat
  present : Bool
  deriving DecidableEq, Repr

/-- An entry of the global descriptor table; `kind` is the type with the bit for code and data segments. -/
structure Segment where
  base : Nat
  limit : Nat
  kind : Nat
  dpl : Nat
  present : Bool
  long : Bool
  deriving DecidableEq, Repr

namespace Segment

def Code (d : Segment) : Prop := d.kind / 8 = 3
def Conforming (d : Segment) : Prop := d.kind / 4 % 2 = 1
def WritableData (d : Segment) : Prop := d.kind / 8 = 2 ∧ d.kind / 2 % 2 = 1

instance (d : Segment) : Decidable d.Code := inferInstanceAs (Decidable (_ = _))
instance (d : Segment) : Decidable d.Conforming := inferInstanceAs (Decidable (_ = _))
instance (d : Segment) : Decidable d.WritableData := inferInstanceAs (Decidable (_ ∧ _))

end Segment

namespace Bytes

def gate (m : Bytes) (a : Nat) : Gate where
  offset := m.load a 2 + 2^16 * m.load (a + 6) 2 + 2^32 * m.load (a + 8) 4
  selector := m.load (a + 2) 2
  ist := m.load (a + 4) 2 % 8
  kind := m.load (a + 4) 2 / 2^8 % 32
  dpl := m.load (a + 4) 2 / 2^13 % 4
  present := decide (m.load (a + 4) 2 / 2^15 = 1)

def segment (m : Bytes) (a : Nat) : Segment where
  base := m.load (a + 2) 2 + 2^16 * m.load (a + 4) 1 + 2^24 * m.load (a + 7) 1
  limit := m.load a 2 + 2^16 * (m.load (a + 6) 1 % 16)
  kind := m.load (a + 5) 1 % 32
  dpl := m.load (a + 5) 1 / 2^5 % 4
  present := decide (m.load (a + 5) 1 / 2^7 = 1)
  long := decide (m.load (a + 6) 1 / 2^5 % 2 = 1)

/-- A system segment has 16 bytes, and the upper half of its base in the second eight. -/
def systemBase (m : Bytes) (a : Nat) : Nat := (m.segment a).base + 2^32 * m.load (a + 8) 4

theorem load_shift {m m' : Bytes} {a b n : Nat} (h : ∀ k, k < n → m (a + k) = m' (b + k)) :
    m.load a n = m'.load b n := by
  induction n generalizing a b with
  | zero => rfl
  | succ n ih =>
    have hhead := h 0 (Nat.succ_pos n)
    rw [Nat.add_zero,Nat.add_zero] at hhead
    rw [load,load,hhead]
    congr 2
    apply ih
    intro k hk
    have hk' := h (k + 1) (Nat.succ_lt_succ hk)
    rwa [show a + 1 + k = a + (k + 1) by omega,show b + 1 + k = b + (k + 1) by omega]

private theorem load_part {m m' : Bytes} {a b n : Nat} (h : ∀ k, k < n → m (a + k) = m' (b + k)) (i j : Nat)
    (hij : i + j ≤ n) : m.load (a + i) j = m'.load (b + i) j := by
  apply load_shift
  intro k hk
  rw [Nat.add_assoc,Nat.add_assoc]
  exact h (i + k) (by omega)

/-- A gate is made of its sixteen bytes. -/
theorem gate_shift {m m' : Bytes} {a b : Nat} (h : ∀ k, k < 16 → m (a + k) = m' (b + k)) : m.gate a = m'.gate b := by
  have h0 : m.load a 2 = m'.load b 2 := load_part h 0 2 (by decide)
  simp only [gate, h0, load_part h 2 2 (by decide), load_part h 4 2 (by decide), load_part h 6 2 (by decide),
    load_part h 8 4 (by decide)]

/-- A segment is made of its eight bytes. -/
theorem segment_shift {m m' : Bytes} {a b : Nat} (h : ∀ k, k < 8 → m (a + k) = m' (b + k)) :
    m.segment a = m'.segment b := by
  have h0 : m.load a 2 = m'.load b 2 := load_part h 0 2 (by decide)
  simp only [segment, h0, load_part h 2 2 (by decide), load_part h 4 1 (by decide), load_part h 5 1 (by decide),
    load_part h 6 1 (by decide), load_part h 7 1 (by decide)]

end Bytes

/-- The descriptor tables that the processor was told of, and the task state segment. -/
structure Tables where
  idt : Nat
  idtLimit : Nat
  gdt : Nat
  gdtLimit : Nat
  tss : Nat

structure Core where
  cpu : Cpu
  cs : BitVec 16
  ss : BitVec 16

namespace Tables
variable (T : Tables)

/-- The descriptor of a selector that is not null and within the global table. -/
def descriptor (m : Bytes) (selector : Nat) : Option Segment :=
  if 4 ≤ selector ∧ selector / 4 % 2 = 0 ∧ selector / 8 * 8 + 7 ≤ T.gdtLimit then
    some (m.segment (T.gdt + selector / 8 * 8))
  else none

def codeSegment (m : Bytes) (selector : Nat) : Option Segment :=
  (T.descriptor m selector).filter fun d => d.Code ∧ d.present ∧ d.long

/-- The stack that the task state segment names for a ring. -/
def ringStack (m : Bytes) (ring : Nat) : Nat := m.load (T.tss + 4 + 8 * ring) 8

/-- The stack that the task state segment names for a gate. -/
def gateStack (m : Bytes) (ist : Nat) : Nat := m.load (T.tss + 36 + 8 * (ist - 1)) 8

end Tables

namespace Core
variable (T : Tables) (c : Core)

def cpl : Nat := c.cs.toNat % 4

/-- What the processor pushes on its way through a gate. -/
def frame (back : BitVec 64) : List (BitVec 64) :=
  [c.ss.setWidth 64,c.cpu.regs .rsp,c.cpu.rflags,c.cs.setWidth 64,back]

/-- A gate clears the trap flag and those of nesting, resumption and virtual mode, an interrupt gate also the
interrupt flag. -/
def gateFlags (kind : Nat) (rflags : BitVec 64) : BitVec 64 :=
  if kind = 14 then rflags &&& ~~~0x34300 else rflags &&& ~~~0x34100

/-- The entry itself: on the stack `stack` to ring `ring`, with `back` as the address to return to. -/
def enter (g : Gate) (ring stack : Nat) (back : BitVec 64) : Core where
  cpu := { (c.frame back).foldl Cpu.push (c.cpu.set .rsp (BitVec.ofNat 64 (stack / 16 * 16))) with
    rip := BitVec.ofNat 64 g.offset
    rflags := gateFlags g.kind c.cpu.rflags }
  cs := BitVec.ofNat 16 (g.selector / 4 * 4 + ring)
  ss := if ring < c.cpl then BitVec.ofNat 16 ring else c.ss

/-- Entry through gate `v`; `software` for an `int` instruction. There is no result where the processor raises
an exception instead. -/
def deliver (software : Bool) (v : Nat) (back : BitVec 64) : Option Core :=
  let g := c.cpu.mem.gate (T.idt + 16 * v)
  if 16 * v + 15 ≤ T.idtLimit ∧ (g.kind = 14 ∨ g.kind = 15) ∧ (software = true → c.cpl ≤ g.dpl) ∧ g.present then
    match T.codeSegment c.cpu.mem g.selector with
    | none => none
    | some d =>
      if d.dpl ≤ c.cpl then
        let ring := if d.Conforming then c.cpl else d.dpl
        let stack :=
          if g.ist ≠ 0 then T.gateStack c.cpu.mem g.ist
          else if ring < c.cpl then T.ringStack c.cpu.mem ring else (c.cpu.regs .rsp).toNat
        some (c.enter g ring stack back)
      else none
  else none

/-- The stack segment that a return to `ring` may load. -/
def stackSegmentOk (selector ring : Nat) : Bool :=
  if selector < 4 then ring ≠ 3 ∧ selector = ring
  else ((T.descriptor c.cpu.mem selector).any fun d => d.WritableData ∧ d.dpl = ring ∧ d.present) ∧ selector % 4 = ring

/-- The `i`-th word on the stack. -/
def word (i : Nat) : BitVec 64 := BitVec.ofNat 64 (c.cpu.mem.load ((c.cpu.regs .rsp).toNat + 8 * i) 8)

/-- `iretq` in ring 0. -/
def iretq : Option Core :=
  let cs := (c.word 1).setWidth 16
  let ss := (c.word 4).setWidth 16
  let ring := cs.toNat % 4
  match T.codeSegment c.cpu.mem cs.toNat with
  | none => none
  | some d =>
    if c.cpl = 0 ∧ (if d.Conforming then d.dpl ≤ ring else d.dpl = ring) ∧ c.stackSegmentOk T ss.toNat ring then
      some {
        cpu := { c.cpu.set .rsp (c.word 3) with rip := c.word 0, rflags := c.word 2 }
        cs := cs
        ss := ss }
    else none

end Core

namespace Cpu
variable {s : Cpu}

/-- Pushing values in turn. -/
theorem pushed_foldl {vs : List (BitVec 64)} (h : 8 * vs.length ≤ (s.regs .rsp).toNat) :
    s.Pushed vs (vs.foldl push s) := by
  induction vs generalizing s with
  | nil => exact .refl s
  | cons v vs ih =>
    rw [List.length_cons] at h
    have hpush := pushed_push (show 8 ≤ (s.regs .rsp).toNat by omega) v
    have hrsp := hpush.rsp
    rw [List.length_singleton] at hrsp
    exact hpush.trans (ih (by omega))

end Cpu

namespace Bytes

/-- The `i`-th of the words from `a` on. -/
theorem Words.load {m : Bytes} {a i : Nat} {ws : List (BitVec 64)} (h : m.Words a ws) (hi : i < ws.length) :
    m.load (a + 8 * i) 8 = ws[i].toNat := by
  induction ws generalizing a i with
  | nil => exact absurd hi (Nat.not_lt_zero i)
  | cons w ws ih =>
    cases i with
    | zero => exact h.1
    | succ i =>
      rw [show a + 8 * (i + 1) = a + 8 + 8 * i by omega,List.getElem_cons_succ]
      exact ih h.2 (Nat.lt_of_succ_lt_succ hi)

end Bytes

namespace Core
variable {T : Tables} {c : Core}

theorem word_eq {ws : List (BitVec 64)} (h : c.cpu.mem.Words (c.cpu.regs .rsp).toNat ws) {i : Nat}
    (hi : i < ws.length) : c.word i = ws[i] := by
  rw [word,h.load hi,BitVec.ofNat_toNat,BitVec.setWidth_eq]

/-- `c'` is `c` after the entry through a gate to ring 0 on the stack that ends at `top`. -/
structure Entered (c : Core) (g : Gate) (top : Nat) (back : BitVec 64) (c' : Core) : Prop where
  rsp : (c'.cpu.regs .rsp).toNat + 40 = top
  regs : ∀ r, r ≠ .rsp → c'.cpu.regs r = c.cpu.regs r
  rflags : c'.cpu.rflags = gateFlags g.kind c.cpu.rflags
  rip : c'.cpu.rip = BitVec.ofNat 64 g.offset
  cs : c'.cs = BitVec.ofNat 16 g.selector
  ss : c'.ss = 0
  words : c'.cpu.mem.Words (c'.cpu.regs .rsp).toNat (c.frame back).reverse
  mem : ∀ a, ¬ ((c'.cpu.regs .rsp).toNat ≤ a ∧ a < top) → c'.cpu.mem a = c.cpu.mem a

theorem entered_enter {g : Gate} {stack : Nat} {back : BitVec 64} (hstack : stack < 2^64)
    (hroom : 40 ≤ stack / 16 * 16) (hsel : g.selector % 4 = 0) (hcpl : 0 < c.cpl) :
    c.Entered g (stack / 16 * 16) back (c.enter g 0 stack back) := by
  have hsrsp : ((c.cpu.set .rsp (BitVec.ofNat 64 (stack / 16 * 16))).regs .rsp).toNat = stack / 16 * 16 := by
    rw [Cpu.set_self,BitVec.toNat_ofNat,Nat.mod_eq_of_lt (by omega)]
  have hlen : (c.frame back).length = 5 := rfl
  have hpush := @Cpu.pushed_foldl (c.cpu.set .rsp (BitVec.ofNat 64 (stack / 16 * 16))) (c.frame back)
    (by rw [hsrsp]; exact hroom)
  have hrsp := hpush.rsp
  have hwords := hpush.words [] trivial
  rw [hlen,hsrsp] at hrsp
  rw [List.append_nil] at hwords
  refine ⟨hrsp,?_,rfl,rfl,?_,if_pos hcpl,hwords,?_⟩
  · intro r hr
    exact (hpush.regs r hr).trans (Cpu.set_ne _ hr _)
  · change BitVec.ofNat 16 (g.selector / 4 * 4 + 0) = _
    rw [Nat.add_zero,Nat.div_mul_cancel (Nat.dvd_of_mod_eq_zero hsel)]
  · intro a ha
    rw [← hsrsp] at ha
    exact hpush.frame a ha

/-- From an outer ring, a present gate to a ring 0 code segment is entered on the ring 0 stack. -/
theorem deliver_eq {software : Bool} {v : Nat} {g : Gate} {d : Segment} (back : BitVec 64)
    (hlimit : 16 * v + 15 ≤ T.idtLimit) (hg : c.cpu.mem.gate (T.idt + 16 * v) = g)
    (hkind : g.kind = 14 ∨ g.kind = 15) (hdpl : software = true → c.cpl ≤ g.dpl) (hpresent : g.present = true)
    (hist : g.ist = 0) (hd : T.codeSegment c.cpu.mem g.selector = some d) (hring : d.dpl = 0)
    (hconf : ¬ d.Conforming) (hcpl : 0 < c.cpl) :
    c.deliver T software v back = some (c.enter g 0 (T.ringStack c.cpu.mem 0) back) := by
  simp only [deliver, hg]
  rw [if_pos ⟨hlimit,hkind,hdpl,hpresent⟩,hd]
  simp only [hring, hist, if_neg hconf, if_pos hcpl, if_pos (Nat.zero_le _), ne_eq, not_true_eq_false, ↓reduceIte]

/-- A software interrupt through a gate of a lower privilege level raises an exception. -/
theorem deliver_eq_none {v : Nat} (back : BitVec 64) (h : (c.cpu.mem.gate (T.idt + 16 * v)).dpl < c.cpl) :
    c.deliver T true v back = none := by
  apply if_neg
  rintro ⟨-,-,hdpl,-⟩
  exact absurd (hdpl rfl) (Nat.not_le_of_lt h)

/-- A return to ring 3 with a frame whose selectors name a code and a data segment of ring 3. -/
theorem iretq_eq {rip cs rflags rsp ss : BitVec 64} {ws : List (BitVec 64)} {d e : Segment}
    (hw : c.cpu.mem.Words (c.cpu.regs .rsp).toNat (rip :: cs :: rflags :: rsp :: ss :: ws)) (hcpl : c.cpl = 0)
    (hcs : (cs.setWidth 16).toNat % 4 = 3) (hss : (ss.setWidth 16).toNat % 4 = 3)
    (hd : T.codeSegment c.cpu.mem (cs.setWidth 16).toNat = some d) (hring : d.dpl = 3) (hconf : ¬ d.Conforming)
    (he : T.descriptor c.cpu.mem (ss.setWidth 16).toNat = some e) (hdata : e.WritableData) (hering : e.dpl = 3)
    (hpresent : e.present = true) :
    c.iretq T = some {
      cpu := { c.cpu.set .rsp rsp with rip := rip, rflags := rflags }
      cs := cs.setWidth 16
      ss := ss.setWidth 16 } := by
  have hlen : ∀ i, i < 5 → i < (rip :: cs :: rflags :: rsp :: ss :: ws).length := by
    intro i hi
    simp only [List.length_cons]
    omega
  have hge : ¬ (ss.setWidth 16).toNat < 4 := by
    intro hlt
    rw [Tables.descriptor,if_neg (by omega)] at he
    cases he
  have hok : c.stackSegmentOk T (ss.setWidth 16).toNat 3 = true := by
    rw [stackSegmentOk,if_neg hge,he]
    simp only [Option.any_some, hdata, hering, hpresent, hss, and_self, decide_true]
  have h0 := word_eq hw (hlen 0 (by decide))
  have h1 := word_eq hw (hlen 1 (by decide))
  have h2 := word_eq hw (hlen 2 (by decide))
  have h3 := word_eq hw (hlen 3 (by decide))
  have h4 := word_eq hw (hlen 4 (by decide))
  simp only [List.getElem_cons_zero, List.getElem_cons_succ] at h0 h1 h2 h3 h4
  simp only [iretq, h0, h1, h2, h3, h4, hd, hcs]
  rw [if_pos ⟨hcpl,by rw [if_neg hconf,hring],hok⟩]

end Core

end HeineOS.Lib
