import HeineOS.Boot.Gdt
import HeineOS.Interrupt.Idt
import HeineOS.Syscall.Dispatcher
import HeineOS.Thread.Frames

/-! The way of a thread into ring 3, and of its system calls and interrupts back into the kernel. -/
namespace HeineOS.Usermode
open Lib Switch Syscall

/-- Where the tables of the processor lie, besides the stacks, and where user threads start. -/
structure Machine (T : Type) extends Switch.Layout T where
  isKernelThread : T → Bool
  userTop : T → BitVec 64
  kickoffUserThread : BitVec 64
  handlers : Idt.Handlers
  functions : KernelFunctions
  idt : Nat
  gdt : Nat
  tss_bounded : tss.toNat + 104 ≤ 2^64
  tables_apart : idt + 16 * Idt.idtSize ≤ gdt ∨ gdt + 56 ≤ idt
  idt_apart : ∀ a, idt ≤ a → a < idt + 16 * Idt.idtSize →
    ¬ ((tss + 4).toNat ≤ a ∧ a < (tss + 4).toNat + 8) ∧ ∀ t, ¬ toLayout.Owns t a
  gdt_apart : ∀ a, gdt ≤ a → a < gdt + 56 →
    ¬ ((tss + 4).toNat ≤ a ∧ a < (tss + 4).toNat + 8) ∧ ∀ t, ¬ toLayout.Owns t a

namespace Machine
variable {T : Type} (M : Machine T)

/-- The bytes of the two tables. -/
def Fixed (a : Nat) : Prop := (M.idt ≤ a ∧ a < M.idt + 16 * Idt.idtSize) ∨ (M.gdt ≤ a ∧ a < M.gdt + 56)

/-- The bytes of `rsp0`. -/
def Rsp0 (a : Nat) : Prop := (M.tss + 4).toNat ≤ a ∧ a < (M.tss + 4).toNat + 8

def tables : Tables where
  idt := (Idt.IdtDescriptor.new M.idt).address
  idtLimit := (Idt.IdtDescriptor.new M.idt).limit
  gdt := M.gdt
  gdtLimit := Gdt.gdtLimit
  tss := M.tss.toNat

/-- Where the processor starts to push when it enters the kernel from ring 3. -/
def base (t : T) : Nat := M.getTopOfStack t / 16 * 16

/-- The tables as `Idt::new` and the boot code leave them. -/
structure Installed (m : Bytes) : Prop where
  gates : ∀ v, v < Idt.idtSize → m.gate (M.idt + 16 * v) = Idt.gateOf M.handlers v
  kernelCode : m.segment (M.gdt + 8) = Gdt.kernelCode
  userCode : m.segment (M.gdt + 24) = Gdt.userCode
  userData : m.segment (M.gdt + 32) = Gdt.userData

variable {M}

theorem Installed.congr {m m' : Bytes} (h : M.Installed m) (hm : ∀ a, M.Fixed a → m' a = m a) : M.Installed m' := by
  have hseg : ∀ i, i < 7 → m'.segment (M.gdt + 8 * i) = m.segment (M.gdt + 8 * i) := by
    intro i hi
    exact Bytes.segment_shift fun k hk => hm _ (.inr ⟨by omega,by omega⟩)
  refine ⟨?_,(hseg 1 (by decide)).trans h.kernelCode,(hseg 3 (by decide)).trans h.userCode,
    (hseg 4 (by decide)).trans h.userData⟩
  intro v hv
  rw [← h.gates v hv]
  exact Bytes.gate_shift fun k hk => hm _ (.inl ⟨by omega,by omega⟩)

/-- After the boot code has set up both tables. -/
theorem installed_boot (M : Machine T) (m : Bytes) :
    M.Installed (Idt.image (Idt.new M.handlers) M.idt (Gdt.booted M.gdt M.tss m)) := by
  have happ := M.tables_apart
  have hseg : ∀ i, i < 7 → (Idt.image (Idt.new M.handlers) M.idt (Gdt.booted M.gdt M.tss m)).segment (M.gdt + 8 * i) =
      (Gdt.booted M.gdt M.tss m).segment (M.gdt + 8 * i) := by
    intro i hi
    apply Bytes.segment_shift
    intro k hk
    apply Idt.image_frame
    rw [Idt.length_new]
    omega
  obtain ⟨h1,-,h3,h4,-,-⟩ := Gdt.booted_spec M.gdt M.tss m
  exact ⟨fun v hv => Idt.gate_new hv _ _,(hseg 1 (by decide)).trans h1,(hseg 3 (by decide)).trans h3,
    (hseg 4 (by decide)).trans h4⟩

private theorem gdtLimit_ok {selector : Nat} (h : 4 ≤ selector ∧ selector / 4 % 2 = 0)
    (hlimit : selector / 8 * 8 + 7 ≤ 55) :
    4 ≤ selector ∧ selector / 4 % 2 = 0 ∧ selector / 8 * 8 + 7 ≤ M.tables.gdtLimit := ⟨h.1,h.2,hlimit⟩

section
variable {m : Bytes}

theorem Installed.codeSegment_kernel (h : M.Installed m) : M.tables.codeSegment m 8 = some Gdt.kernelCode := by
  rw [Tables.codeSegment,Tables.descriptor,if_pos (gdtLimit_ok (by decide) (by decide))]
  change Option.filter _ (some (m.segment (M.gdt + 8))) = _
  rw [h.kernelCode]
  rfl

theorem Installed.codeSegment_user (h : M.Installed m) : M.tables.codeSegment m 27 = some Gdt.userCode := by
  rw [Tables.codeSegment,Tables.descriptor,if_pos (gdtLimit_ok (by decide) (by decide))]
  change Option.filter _ (some (m.segment (M.gdt + 24))) = _
  rw [h.userCode]
  rfl

theorem Installed.descriptor_user (h : M.Installed m) : M.tables.descriptor m 35 = some Gdt.userData := by
  rw [Tables.descriptor,if_pos (gdtLimit_ok (by decide) (by decide))]
  change some (m.segment (M.gdt + 32)) = _
  rw [h.userData]

end

theorem ringStack_eq (M : Machine T) (m : Bytes) : M.tables.ringStack m 0 = m.load (M.tss + 4).toNat 8 := by
  have h := M.tss_bounded
  have hadd : (M.tss + 4).toNat = M.tss.toNat + 4 := by
    rw [BitVec.toNat_add]
    exact Nat.mod_eq_of_lt (show M.tss.toNat + 4 < 2^64 by omega)
  rw [hadd]
  rfl

theorem base_le (M : Machine T) (t : T) : M.base t ≤ M.kernelStack t + 8 * M.length t ∧ M.kernelStack t + 400000 ≤ M.base t := by
  have hlen : 65536 ≤ M.length t := M.capacity t
  rw [base,Switch.Layout.getTopOfStack]
  omega

theorem fixed_apart {a : Nat} (h : M.Fixed a) : ¬ M.Rsp0 a ∧ ∀ t, ¬ M.toLayout.Owns t a := by
  rcases h with h | h
  · exact M.idt_apart a h.1 h.2
  · exact M.gdt_apart a h.1 h.2

end Machine

section
variable {T : Type} {M : Machine T} {c : Core} {t : T}

/-- From ring 3 every gate leads to ring 0, onto the stack that `rsp0` names, unless it is a software interrupt
through a gate other than 0x80: that raises an exception. -/
theorem deliver_user (hi : M.Installed c.cpu.mem) (hcs : c.cs = 27)
    (hrsp0 : c.cpu.mem.load (M.tss + 4).toNat 8 = M.getTopOfStack t) {v : Nat} (hv : v < Idt.idtSize) (back : BitVec 64) :
    (c.deliver M.tables true v back = none ↔ v ≠ 0x80) ∧
      ∀ software, (software = true → v = 0x80) → ∃ c', c.deliver M.tables software v back = some c' ∧
        c.Entered (Idt.gateOf M.handlers v) (M.base t) back c' := by
  have hcpl : c.cpl = 3 := by
    rw [Core.cpl,hcs]
    decide
  have hgate := hi.gates v hv
  obtain ⟨hsel,hist,hpresent,hkind,hdpl⟩ := Idt.gateOf_spec M.handlers v
  have hsome : ∀ software, (software = true → v = 0x80) →
      c.deliver M.tables software v back =
        some (c.enter (Idt.gateOf M.handlers v) 0 (M.tables.ringStack c.cpu.mem 0) back) := by
    intro software hsoft
    refine Core.deliver_eq (d := Gdt.kernelCode) back ?_ hgate ?_ ?_ hpresent hist ?_ rfl (by decide) ?_
    · change 16 * v + 15 ≤ 16 * Idt.idtSize - 1
      omega
    · rw [hkind]
      split
      · exact .inr rfl
      · exact .inl rfl
    · intro h
      rw [hdpl,if_pos (hsoft h),hcpl]
    · rw [hsel]
      exact hi.codeSegment_kernel
    · rw [hcpl]
      decide
  constructor
  · constructor
    · rintro hnone rfl
      rw [hsome true fun _ => rfl] at hnone
      cases hnone
    · intro hne
      apply Core.deliver_eq_none
      change (c.cpu.mem.gate (M.idt + 16 * v)).dpl < c.cpl
      rw [hgate,hdpl,if_neg hne,hcpl]
      decide
  · intro software hsoft
    refine ⟨_,hsome software hsoft,?_⟩
    have hstack : M.tables.ringStack c.cpu.mem 0 = M.getTopOfStack t := (M.ringStack_eq _).trans hrsp0
    have hbase := M.base_le t
    rw [hstack]
    apply Core.entered_enter
    · rw [← hstack]
      exact Bytes.load_lt _ _ _
    · change 40 ≤ M.base t
      omega
    · rw [hsel]
    · rw [hcpl]
      decide

end

section
variable {T : Type} (M : Machine T) (t : T)

def threadUserStart (c : Core) : Option Core := Core.iretq M.tables { c with cpu := c.cpu.exec [.mov .rsp .rdi,.pop .rdi] }

/-- The fake interrupt frame on the kernel stack. -/
def userFrame (m : Bytes) : Bytes :=
  let offset := M.length t - 1024 / 8
  let m := setStack M.toLayout t m offset ((4 <<< 3) ||| 3)
  let rsp := M.userTop t
  let rsp := rsp &&& ~~~0xf
  let rsp := rsp - 8
  let m := setStack M.toLayout t m (offset - 1) rsp
  let rflags := 0
  let rflags := rflags ||| (1 <<< 9)
  let rflags := rflags ||| (1 <<< 1)
  let m := setStack M.toLayout t m (offset - 2) rflags
  let m := setStack M.toLayout t m (offset - 3) ((3 <<< 3) ||| 3)
  let m := setStack M.toLayout t m (offset - 4) M.kickoffUserThread
  setStack M.toLayout t m (offset - 5) (M.thread t)

def switchToUsermode (c : Core) : Option Core :=
  let offset := M.length t - 1024 / 8
  let stackPtr := BitVec.ofNat 64 (M.kernelStack t + 8 * (offset - 5))
  threadUserStart M { c with cpu := { c.cpu.set .rdi stackPtr with mem := userFrame M t c.cpu.mem } }

/-- `kickoff_kernel_thread` up to the entry function of the thread. -/
def kickoffKernelThread (c : Core) : Option Core :=
  let rsp0 := BitVec.ofNat 64 (M.getTopOfStack t)
  let c := { c with cpu := tssSetRsp0 M.tss (c.cpu.set .rdi rsp0) }
  if M.isKernelThread t then some { c with cpu := { c.cpu with rflags := c.cpu.rflags ||| (1 <<< 9) } }
  else switchToUsermode M t c

/-- The frame that `iretq` takes a user thread to its first instruction with. -/
def firstWords : List (BitVec 64) :=
  [M.thread t,M.kickoffUserThread,27,0x202,(M.userTop t &&& ~~~0xf) - 8,35]

variable {M t}

private theorem setStack_words {m : Bytes} {i : Nat} {ws : List (BitVec 64)} (w : BitVec 64)
    (h : m.Words (M.kernelStack t + 8 * (i + 1)) ws) :
    (setStack M.toLayout t m i w).Words (M.kernelStack t + 8 * i) (w :: ws) := by
  apply Bytes.Words.store
  rwa [show M.kernelStack t + 8 * i + 8 = M.kernelStack t + 8 * (i + 1) by omega]

private theorem setStack_frame {m : Bytes} {i : Nat} {w : BitVec 64} {a : Nat}
    (h : ¬ (M.kernelStack t + 8 * i ≤ a ∧ a < M.kernelStack t + 8 * i + 8)) :
    setStack M.toLayout t m i w a = m a := Bytes.store_of_not_mem _ _ h

theorem userFrame_words (m : Bytes) :
    (userFrame M t m).Words (M.kernelStack t + 8 * (M.length t - 1024 / 8 - 5)) (firstWords M t) := by
  have hlen : 65536 ≤ M.length t := M.capacity t
  unfold userFrame
  generalize hoff : M.length t - 1024 / 8 = offset
  have h6 : offset = offset - 5 + 5 := by omega
  rw [firstWords]
  apply setStack_words
  rw [show offset - 5 + 1 = offset - 4 by omega]
  apply setStack_words
  rw [show offset - 4 + 1 = offset - 3 by omega]
  apply setStack_words
  rw [show offset - 3 + 1 = offset - 2 by omega]
  apply setStack_words
  rw [show offset - 2 + 1 = offset - 1 by omega]
  apply setStack_words
  rw [show offset - 1 + 1 = offset by omega]
  apply setStack_words
  trivial

theorem userFrame_frame {m : Bytes} {a : Nat}
    (h : ¬ (M.kernelStack t ≤ a ∧ a < M.kernelStack t + 8 * M.length t)) : userFrame M t m a = m a := by
  have hlen : 65536 ≤ M.length t := M.capacity t
  unfold userFrame
  rw [setStack_frame (by omega),setStack_frame (by omega),setStack_frame (by omega),setStack_frame (by omega),
    setStack_frame (by omega),setStack_frame (by omega)]

/-- `c` runs the first instruction of the user thread `t`, on its user stack with interrupts enabled. -/
structure Started (M : Machine T) (t : T) (c : Core) : Prop where
  rip : c.cpu.rip = M.kickoffUserThread
  rdi : c.cpu.regs .rdi = M.thread t
  rsp : c.cpu.regs .rsp = (M.userTop t &&& ~~~0xf) - 8
  rflags : c.cpu.rflags = 0x202
  cs : c.cs = 27
  ss : c.ss = 35

private theorem exec_start {s : Cpu} {w : BitVec 64} {ws : List (BitVec 64)}
    (hw : s.mem.Words (s.regs .rdi).toNat (w :: ws)) (hlt : (s.regs .rdi).toNat + 8 < 2^64) :
    (s.exec [.mov .rsp .rdi,.pop .rdi]).regs .rdi = w ∧ (s.exec [.mov .rsp .rdi,.pop .rdi]).mem = s.mem ∧
      s.mem.Words ((s.exec [.mov .rsp .rdi,.pop .rdi]).regs .rsp).toNat ws := by
  have hself : (s.step (.mov .rsp .rdi)).regs .rsp = s.regs .rdi := Cpu.set_self _ _
  have hpop := @Cpu.popped_exec (s.step (.mov .rsp .rdi)) ws [.rdi] (by decide) (fun _ => w)
    (by rw [hself]; exact hw) (by rw [hself]; exact hlt)
  have hmem : ((s.step (.mov .rsp .rdi)).exec ([Reg.rdi].map .pop)).mem = s.mem := hpop.mem
  have hwords := hpop.words
  rw [hmem] at hwords
  exact ⟨hpop.popped .rdi List.mem_cons_self,hmem,hwords⟩

private theorem threadUserStart_spec (hi : M.Installed c.cpu.mem) (hcpl : c.cpl = 0)
    (hw : c.cpu.mem.Words (c.cpu.regs .rdi).toNat (firstWords M t)) (hlt : (c.cpu.regs .rdi).toNat + 8 < 2^64) :
    ∃ c', threadUserStart M c = some c' ∧ Started M t c' ∧ c'.cpu.mem = c.cpu.mem := by
  unfold threadUserStart
  obtain ⟨hrdi,hmem,hwords⟩ := exec_start hw hlt
  generalize c.cpu.exec [.mov .rsp .rdi,.pop .rdi] = s at *
  rw [← hmem] at hwords hi
  have hret := Core.iretq_eq (T := M.tables) (c := { c with cpu := s }) hwords hcpl (by decide) (by decide)
    hi.codeSegment_user rfl (by decide) hi.descriptor_user (by decide) rfl rfl
  refine ⟨_,hret,⟨rfl,?_,?_,rfl,rfl,rfl⟩,hmem⟩
  · exact (Cpu.set_ne s (show Reg.rdi ≠ .rsp by decide) ((M.userTop t &&& ~~~15) - 8)).trans hrdi
  · exact @Cpu.set_self s .rsp ((M.userTop t &&& ~~~15) - 8)

/-- A user thread starts in ring 3. -/
theorem kickoff_user (hi : M.Installed c.cpu.mem) (hcpl : c.cpl = 0) (hu : M.isKernelThread t = false) :
    ∃ c', kickoffKernelThread M t c = some c' ∧ Started M t c' ∧
      c'.cpu.mem = userFrame M t (c.cpu.mem.store (M.tss + 4).toNat 8 (BitVec.ofNat 64 (M.getTopOfStack t)).toNat) := by
  have hlen : 65536 ≤ M.length t := M.capacity t
  have hbound := M.bounded t
  have hi' : M.Installed (userFrame M t (c.cpu.mem.store (M.tss + 4).toNat 8
      (BitVec.ofNat 64 (M.getTopOfStack t)).toNat)) := by
    apply hi.congr
    intro a ha
    obtain ⟨hr,hown⟩ := Machine.fixed_apart ha
    rw [userFrame_frame fun h => hown t (.inl h),Bytes.store_of_not_mem _ _ hr]
  have hptr : (BitVec.ofNat 64 (M.kernelStack t + 8 * (M.length t - 1024 / 8 - 5))).toNat =
      M.kernelStack t + 8 * (M.length t - 1024 / 8 - 5) := by
    rw [BitVec.toNat_ofNat,Nat.mod_eq_of_lt (by omega)]
  rw [kickoffKernelThread,hu]
  simp only [Bool.false_eq_true, if_false, switchToUsermode]
  generalize hptr' : BitVec.ofNat 64 (M.kernelStack t + 8 * (M.length t - 1024 / 8 - 5)) = ptr at *
  have hmem : (tssSetRsp0 M.tss (c.cpu.set .rdi (BitVec.ofNat 64 (M.getTopOfStack t)))).mem =
      c.cpu.mem.store (M.tss + 4).toNat 8 (BitVec.ofNat 64 (M.getTopOfStack t)).toNat := rfl
  rw [hmem]
  have hwords := userFrame_words (M := M) (t := t)
    (c.cpu.mem.store (M.tss + 4).toNat 8 (BitVec.ofNat 64 (M.getTopOfStack t)).toNat)
  generalize userFrame M t _ = m at *
  generalize tssSetRsp0 M.tss _ = s at *
  refine threadUserStart_spec (c := ⟨⟨(s.set .rdi ptr).regs,_,_,m⟩,c.cs,c.ss⟩) hi' hcpl ?_ ?_
  · rw [Cpu.set_self,hptr]
    exact hwords
  · rw [Cpu.set_self,hptr]
    omega

end

end HeineOS.Usermode
