import HeineOS.Thread.Transparency

/-! Coroutines: the stack a new one is prepared with, and the code that starts and switches them. -/
namespace HeineOS.Coroutine
open Lib
open Switch (stackSize Context Status restore restoreOrder frame)

def coroutineStart : List Instr :=
  [.mov .rsp .rdi,
    .popfq,
    .pop .rbp,
    .pop .rdi,
    .pop .rsi,
    .pop .rdx,
    .pop .rcx,
    .pop .rbx,
    .pop .rax,
    .pop .r15,
    .pop .r14,
    .pop .r13,
    .pop .r12,
    .pop .r11,
    .pop .r10,
    .pop .r9,
    .pop .r8,
    .ret]

def coroutineSwitch : List Instr :=
  [.push .r8,
    .push .r9,
    .push .r10,
    .push .r11,
    .push .r12,
    .push .r13,
    .push .r14,
    .push .r15,
    .push .rax,
    .push .rbx,
    .push .rcx,
    .push .rdx,
    .push .rsi,
    .push .rdi,
    .push .rbp,
    .pushfq,
    .store .rdi 0 .rsp,
    .mov .rsp .rsi,
    .popfq,
    .pop .rbp,
    .pop .rdi,
    .pop .rsi,
    .pop .rdx,
    .pop .rcx,
    .pop .rbx,
    .pop .rax,
    .pop .r15,
    .pop .r14,
    .pop .r13,
    .pop .r12,
    .pop .r11,
    .pop .r10,
    .pop .r9,
    .pop .r8,
    .ret]

/-- Where the boxes of the coroutines and their stacks lie, and where in a box two of its fields are. -/
structure Layout (T : Type) where
  stack : T → Nat
  length : T → Nat
  coroutine : T → BitVec 64
  size : Nat
  stackPtrOffset : Nat
  nextOffset : Nat
  kickoff : BitVec 64
  capacity : ∀ t, stackSize / 8 ≤ length t
  stack_bounded : ∀ t, stack t + 8 * length t < 2^64
  box_bounded : ∀ t, (coroutine t).toNat + size ≤ 2^64
  stackPtr_le : stackPtrOffset + 8 ≤ size
  next_le : nextOffset + 8 ≤ size
  fields_apart : stackPtrOffset + 8 ≤ nextOffset ∨ nextOffset + 8 ≤ stackPtrOffset
  stacks_apart : ∀ t t', t ≠ t' → stack t + 8 * length t ≤ stack t' ∨ stack t' + 8 * length t' ≤ stack t
  boxes_apart : ∀ t t', t ≠ t' → (coroutine t).toNat + size ≤ (coroutine t').toNat ∨
    (coroutine t').toNat + size ≤ (coroutine t).toNat
  box_stack_apart : ∀ t t', (coroutine t).toNat + size ≤ stack t' ∨ stack t' + 8 * length t' ≤ (coroutine t).toNat

namespace Layout
variable {T : Type} (L : Layout T)

/-- The addresses of the fields `stack_ptr` and `next`. -/
def stackPtr (t : T) : BitVec 64 := L.coroutine t + BitVec.ofNat 64 L.stackPtrOffset

def next (t : T) : BitVec 64 := L.coroutine t + BitVec.ofNat 64 L.nextOffset

variable {L}

private theorem field_toNat {i : Nat} (hi : i + 8 ≤ L.size) (t : T) :
    (L.coroutine t + BitVec.ofNat 64 i).toNat = (L.coroutine t).toNat + i := by
  have hbox := L.box_bounded t
  rw [BitVec.toNat_add,BitVec.toNat_ofNat,Nat.mod_eq_of_lt (show i < 2^64 by omega),Nat.mod_eq_of_lt (by omega)]

theorem stackPtr_toNat (t : T) : (L.stackPtr t).toNat = (L.coroutine t).toNat + L.stackPtrOffset :=
  field_toNat L.stackPtr_le t

theorem next_toNat (t : T) : (L.next t).toNat = (L.coroutine t).toNat + L.nextOffset := field_toNat L.next_le t

variable (L) in
/-- The stacks as stacks of threads. There is no task state segment to write; the field `next` of `t` stands for it. -/
def threads (t : T) : Switch.Layout T where
  kernelStack := L.stack
  length := L.length
  thread := L.coroutine
  stackPtr := L.stackPtr
  tss := L.next t - 4
  kickoffKernelThread := L.kickoff
  capacity := L.capacity
  bounded := L.stack_bounded
  stacks_apart := L.stacks_apart
  fields_apart t t' hne := by
    have hapart := L.boxes_apart t t' hne
    have hle := L.stackPtr_le
    rw [stackPtr_toNat,stackPtr_toNat]
    omega
  field_stack_apart t t' := by
    have hapart := L.box_stack_apart t t'
    have hle := L.stackPtr_le
    rw [stackPtr_toNat]
    omega
  tss_stack_apart t' := by
    have hapart := L.box_stack_apart t t'
    have hle := L.next_le
    rw [BitVec.sub_add_cancel,next_toNat]
    omega
  tss_field_apart t' := by
    have hle := L.stackPtr_le
    have hle' := L.next_le
    have hfields := L.fields_apart
    rw [BitVec.sub_add_cancel,next_toNat,stackPtr_toNat]
    by_cases he : t = t'
    · subst he
      omega
    · have hapart := L.boxes_apart t t' he
      omega

variable (L) in
/-- The bytes of the stack and of the field `stack_ptr` of a coroutine, which its switches write. -/
def Owns (t : T) (a : Nat) : Prop :=
  (L.stack t ≤ a ∧ a < L.stack t + 8 * L.length t) ∨ ((L.stackPtr t).toNat ≤ a ∧ a < (L.stackPtr t).toNat + 8)

theorem owns_apart {t t' : T} (hne : t ≠ t') {a : Nat} (h : L.Owns t a) : ¬ L.Owns t' a :=
  Switch.Layout.owns_apart (L := L.threads t) hne h

variable (L) in
/-- The bytes of the field `next`. -/
def Link (t : T) (a : Nat) : Prop := (L.next t).toNat ≤ a ∧ a < (L.next t).toNat + 8

theorem link_not_owned {t t' : T} {a : Nat} (h : L.Link t a) : ¬ L.Owns t' a := by
  have htss := (L.threads t).tss_stack_apart t'
  have hfield := (L.threads t).tss_field_apart t'
  have hlink : (L.threads t).tss + 4 = L.next t := BitVec.sub_add_cancel _ _
  rw [hlink] at htss hfield
  obtain ⟨h1,h2⟩ := h
  rintro (⟨h3,h4⟩ | ⟨h3,h4⟩)
  · rcases htss with htss | htss
    · exact absurd (h2.trans_le (htss.trans h3)) (lt_irrefl a)
    · exact absurd (h4.trans_le (htss.trans h1)) (lt_irrefl a)
  · rcases hfield with hfield | hfield
    · exact absurd (h2.trans_le (hfield.trans h3)) (lt_irrefl a)
    · exact absurd (h4.trans_le (hfield.trans h1)) (lt_irrefl a)

theorem links_apart {t t' : T} (hne : t ≠ t') {a : Nat} (h : L.Link t a) : ¬ L.Link t' a := by
  have hapart := L.boxes_apart t t' hne
  have hle := L.next_le
  unfold Link at *
  rw [next_toNat] at *
  omega

end Layout

variable {T : Type} (L : Layout T)

/-- A store to `stack[i]`. -/
def setStack (t : T) (m : Bytes) (i : Nat) (v : BitVec 64) : Bytes := m.store (L.stack t + 8 * i) 8 v.toNat

def prepareStack (t : T) (m : Bytes) : Bytes :=
  let kickoff := L.kickoff
  let coroutine := L.coroutine t
  let length := L.length t
  let m := setStack L t m (length - 1) kickoff
  let m := setStack L t m (length - 2) 0
  let m := setStack L t m (length - 3) 0
  let m := setStack L t m (length - 4) 0
  let m := setStack L t m (length - 5) 0
  let m := setStack L t m (length - 6) 0
  let m := setStack L t m (length - 7) 0
  let m := setStack L t m (length - 8) 0
  let m := setStack L t m (length - 9) 0
  let m := setStack L t m (length - 10) 0
  let m := setStack L t m (length - 11) 0
  let m := setStack L t m (length - 12) 0
  let m := setStack L t m (length - 13) 0
  let m := setStack L t m (length - 14) 0
  let m := setStack L t m (length - 15) coroutine
  let m := setStack L t m (length - 16) 0
  let m := setStack L t m (length - 17) 0x2
  m.store (L.stackPtr t).toNat 8 (m.load (L.stackPtr t).toNat 8 - 8 * 16)

def zeroStack (t : T) (m : Bytes) : Bytes := fun a => if L.stack t ≤ a ∧ a < L.stack t + 8 * L.length t then 0 else m a

/-- The memory after a coroutine was created: its stack zeroed, then the fields of its box, then the prepared frame. -/
def new (t : T) (m : Bytes) : Bytes :=
  prepareStack L t
    (((zeroStack L t m).store (L.next t).toNat 8 0).store (L.stackPtr t).toNat 8 (L.stack t + 8 * (L.length t - 1)))

def setNext (t n : T) (m : Bytes) : Bytes := m.store (L.next t).toNat 8 (L.coroutine n).toNat

/-- The stack of `t` holds the frame of the context `k`, and `stack_ptr` points to it. -/
abbrev Holds (t : T) (m : Bytes) (k : Context) : Prop := Switch.Holds (L.threads t) t m k

/-- The context in which a coroutine is entered for the first time. -/
abbrev initial (t : T) : Context := Switch.initial (L.threads t) t

/-- Registers as `Coroutine::switch` passes them, with room on the stack for the call and the frame. -/
structure CallsSwitch (c : T) (s : Cpu) : Prop where
  rdi : s.regs .rdi = L.stackPtr c
  rsi : (s.regs .rsi).toNat = s.mem.load
    (BitVec.ofNat 64 (s.mem.load (L.next c).toNat 8) + BitVec.ofNat 64 L.stackPtrOffset).toNat 8
  low : L.stack c + 8 * 18 ≤ (s.regs .rsp).toNat
  high : (s.regs .rsp).toNat ≤ L.stack c + 8 * L.length c

variable {L} {t : T} {m : Bytes} {k : Context}

private theorem zeroStack_store :
    (zeroStack L t m).store (L.next t).toNat 8 0 = zeroStack L t (m.store (L.next t).toNat 8 0) := by
  funext a
  by_cases ha : L.Link t a
  · have hstack : ¬ (L.stack t ≤ a ∧ a < L.stack t + 8 * L.length t) := fun h => Layout.link_not_owned ha (.inl h)
    rw [zeroStack,if_neg hstack]
    exact (if_pos ha).trans (if_pos ha).symm
  · rw [Bytes.store_of_not_mem _ _ ha,zeroStack,zeroStack,Bytes.store_of_not_mem _ _ ha]

private theorem prepareStack_eq : prepareStack L t m = Switch.prepareKernelStack (L.threads t) t m := rfl

private theorem new_eq : new L t m = Switch.newKernelThread (L.threads t) t (m.store (L.next t).toNat 8 0) := by
  rw [new,zeroStack_store,prepareStack_eq]
  rfl

theorem holds_new : Holds L t (new L t m) (initial L t) := by
  rw [new_eq]
  exact Switch.holds_newKernelThread _

/-- Creating a coroutine writes its own stack and box only. -/
theorem new_frame {a : Nat} (ha : ¬ L.Owns t a) (hl : ¬ L.Link t a) : new L t m a = m a := by
  rw [new_eq,@Switch.newKernelThread_frame _ (L.threads t) t _ a ha,Bytes.store_of_not_mem _ _ hl]

theorem initial_rsp (t : T) : ((initial L t).regs .rsp).toNat = L.stack t + 8 * L.length t := by
  have hbound := L.stack_bounded t
  have hlen : 65536 ≤ L.length t := L.capacity t
  change (BitVec.ofNat 64 (L.stack t + 8 * (L.length t - 1) + 8)).toNat = _
  rw [BitVec.toNat_ofNat,Nat.mod_eq_of_lt (by omega)]
  omega

theorem Holds.of_owns {m' : Bytes} (h : Holds L t m k) (hm : ∀ a, L.Owns t a → m' a = m a) : Holds L t m' k :=
  Switch.Holds.of_owns h hm

section
variable {s : Cpu}

/-- The end of both sequences: the frame of a context is popped. -/
private theorem exec_resume (hk : Holds L t s.mem k) (hrsp : (s.regs .rsp).toNat = s.mem.load (L.stackPtr t).toNat 8) :
    (s.exec restore).regs = k.regs ∧ (s.exec restore).rflags = k.rflags ∧ (s.exec restore).rip = k.rip ∧
      (s.exec restore).mem = s.mem := by
  have hwords := hk.words
  have hk17 := hk.rsp
  change s.mem.Words (s.mem.load (L.stackPtr t).toNat 8) (frame k) at hwords
  change s.mem.load (L.stackPtr t).toNat 8 + 8 * 17 = _ at hk17
  rw [← hrsp] at hwords hk17
  exact Switch.exec_restore hwords hk17

theorem start_spec (hk : Holds L t s.mem k) (hrdi : (s.regs .rdi).toNat = s.mem.load (L.stackPtr t).toNat 8) :
    (s.exec coroutineStart).regs = k.regs ∧ (s.exec coroutineStart).rflags = k.rflags ∧
      (s.exec coroutineStart).rip = k.rip ∧ (s.exec coroutineStart).mem = s.mem := by
  have hcode : coroutineStart = .mov .rsp .rdi :: restore := rfl
  have hk' : Holds L t (s.step (.mov .rsp .rdi)).mem k := hk
  rw [hcode,Cpu.exec_cons]
  apply exec_resume hk'
  rw [Cpu.step,Cpu.set_self]
  exact hrdi

/-- Switching from `c` to `n`: the context of the caller is saved on the stack of `c`, that of `n` is back, and
nothing but the stack and the field of `c` is written. -/
theorem switch_spec {c n : T} (hne : n ≠ c) (hk : Holds L n s.mem k) (hrdi : s.regs .rdi = L.stackPtr c)
    (hrsi : (s.regs .rsi).toNat = s.mem.load (L.stackPtr n).toNat 8) (hlow : L.stack c + 8 * 18 ≤ (s.regs .rsp).toNat)
    (hhigh : (s.regs .rsp).toNat ≤ L.stack c + 8 * L.length c) (back : BitVec 64) :
    ((s.push back).exec coroutineSwitch).regs = k.regs ∧ ((s.push back).exec coroutineSwitch).rflags = k.rflags ∧
      ((s.push back).exec coroutineSwitch).rip = k.rip ∧
      Holds L c ((s.push back).exec coroutineSwitch).mem ⟨s.regs,s.rflags,back⟩ ∧
      ∀ a, ¬ L.Owns c a → ((s.push back).exec coroutineSwitch).mem a = s.mem a := by
  obtain ⟨vs,hvs,hs⟩ := Switch.pushed_frame back (show 8 * 17 ≤ (s.regs .rsp).toNat by omega)
  have hcode : coroutineSwitch = restoreOrder.reverse.map .push ++
      (.pushfq :: .store .rdi 0 .rsp :: .mov .rsp .rsi :: restore) := rfl
  rw [hcode,Cpu.exec_append,Cpu.exec_cons,Cpu.exec_cons,Cpu.exec_cons]
  generalize ((s.push back).exec (restoreOrder.reverse.map .push)).step .pushfq = s₁ at *
  have hlen : vs.length = 17 := by
    rw [← List.length_reverse,hvs,Switch.frame_length]
  have hrsp := hs.rsp
  rw [hlen] at hrsp
  have hmem : ((s₁.step (.store .rdi 0 .rsp)).step (.mov .rsp .rsi)).mem =
      s₁.mem.store (L.stackPtr c).toNat 8 (s₁.regs .rsp).toNat := by
    have hrdi' : s₁.regs .rdi + 0 = L.stackPtr c := by
      rw [hs.regs .rdi (by decide),hrdi]
      exact BitVec.add_zero _
    rw [← hrdi']
    rfl
  have hframe : ∀ a, ¬ L.Owns c a → s₁.mem.store (L.stackPtr c).toNat 8 (s₁.regs .rsp).toNat a = s.mem a := by
    intro a ha
    obtain ⟨hstack,hfield⟩ := not_or.mp ha
    rw [Bytes.store_of_not_mem _ _ hfield,hs.frame a (by omega)]
  have hother : ∀ a, L.Owns n a → s₁.mem.store (L.stackPtr c).toNat 8 (s₁.regs .rsp).toNat a = s.mem a :=
    fun a ha => hframe a (Layout.owns_apart hne ha)
  have hkeep : Holds L n ((s₁.step (.store .rdi 0 .rsp)).step (.mov .rsp .rsi)).mem k := by
    rw [hmem]
    exact hk.of_owns hother
  have hres := exec_resume hkeep (by
    rw [hmem,Cpu.step,Cpu.set_self]
    change (s₁.regs .rsi).toNat = _
    rw [hs.regs .rsi (by decide),hrsi]
    exact (Bytes.load_congr fun a h1 h2 => hother a (.inr ⟨h1,h2⟩)).symm)
  refine ⟨hres.1,hres.2.1,hres.2.2.1,?_,?_⟩
  · have hfs := (L.threads c).field_stack_apart c c
    have hwords := hs.words [] trivial
    rw [List.append_nil,hvs] at hwords
    have hload : (s₁.mem.store (L.stackPtr c).toNat 8 (s₁.regs .rsp).toNat).load (L.stackPtr c).toNat 8 =
        (s₁.regs .rsp).toNat := Bytes.load_store_of_lt _ (s₁.regs .rsp).isLt
    rw [hres.2.2.2,hmem]
    refine ⟨?_,?_,hhigh,?_⟩
    · exact (congrArg (· + 8 * 17) hload).trans hrsp
    · change L.stack c + 8 ≤ Bytes.load _ (L.stackPtr c).toNat 8
      rw [hload]
      omega
    · change Bytes.Words _ (Bytes.load _ (L.stackPtr c).toNat 8) _
      rw [hload]
      apply hwords.congr
      intro a h1 h2
      rw [Switch.frame_length] at h2
      apply Bytes.store_of_not_mem
      change (L.stackPtr c).toNat + 8 ≤ L.stack c ∨ L.stack c + 8 * L.length c ≤ (L.stackPtr c).toNat at hfs
      omega
  · intro a ha
    rw [hres.2.2.2,hmem]
    exact hframe a ha

end

end HeineOS.Coroutine
