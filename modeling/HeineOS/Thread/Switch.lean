import HeineOS.Lib.Cpu

/-! The instruction sequences that start and switch threads, the stack that a new thread is prepared with, and
what they do to registers, flags and memory. -/
namespace HeineOS.Switch
open Lib

/-- Up to its `ret`. -/
def tssSetRsp0 (tss : BitVec 64) (s : Cpu) : Cpu := s.exec [.movImm .rax tss,.store .rax 4 .rdi]

def threadStart (back : BitVec 64) (unlockScheduler : Cpu → Cpu) : List Instr :=
  [.mov .rsp .rdi,
    .call back unlockScheduler,
    .popfq,
    .pop .rbp,
    .pop .rdi,
    .pop .rsi,
    .pop .rdx,
    .pop .rcx,
    .pop .rbx,
    .pop .rax,
    .pop .r15,
    .pop .r14,
    .pop .r13,
    .pop .r12,
    .pop .r11,
    .pop .r10,
    .pop .r9,
    .pop .r8,
    .ret]

def threadSwitch (tss back back' : BitVec 64) (unlockScheduler : Cpu → Cpu) : List Instr :=
  [.push .r8,
    .push .r9,
    .push .r10,
    .push .r11,
    .push .r12,
    .push .r13,
    .push .r14,
    .push .r15,
    .push .rax,
    .push .rbx,
    .push .rcx,
    .push .rdx,
    .push .rsi,
    .push .rdi,
    .push .rbp,
    .pushfq,
    .store .rdi 0 .rsp,
    .mov .rdi .rdx,
    .call back (tssSetRsp0 tss),
    .mov .rsp .rsi,
    .call back' unlockScheduler,
    .popfq,
    .pop .rbp,
    .pop .rdi,
    .pop .rsi,
    .pop .rdx,
    .pop .rcx,
    .pop .rbx,
    .pop .rax,
    .pop .r15,
    .pop .r14,
    .pop .r13,
    .pop .r12,
    .pop .r11,
    .pop .r10,
    .pop .r9,
    .pop .r8,
    .ret]

def stackSize : Nat := 512 * 1024

/-- Where the kernel stacks, the `stack_ptr` fields and the task state segment lie. -/
structure Layout (T : Type) where
  kernelStack : T → Nat
  length : T → Nat
  thread : T → BitVec 64
  stackPtr : T → BitVec 64
  tss : BitVec 64
  kickoffKernelThread : BitVec 64
  capacity : ∀ t, stackSize / 8 ≤ length t
  bounded : ∀ t, kernelStack t + 8 * length t < 2^64
  stacks_apart : ∀ t t', t ≠ t' → kernelStack t + 8 * length t ≤ kernelStack t' ∨
    kernelStack t' + 8 * length t' ≤ kernelStack t
  fields_apart : ∀ t t', t ≠ t' → (stackPtr t).toNat + 8 ≤ (stackPtr t').toNat ∨
    (stackPtr t').toNat + 8 ≤ (stackPtr t).toNat
  field_stack_apart : ∀ t t', (stackPtr t).toNat + 8 ≤ kernelStack t' ∨
    kernelStack t' + 8 * length t' ≤ (stackPtr t).toNat
  tss_stack_apart : ∀ t, (tss + 4).toNat + 8 ≤ kernelStack t ∨ kernelStack t + 8 * length t ≤ (tss + 4).toNat
  tss_field_apart : ∀ t, (tss + 4).toNat + 8 ≤ (stackPtr t).toNat ∨ (stackPtr t).toNat + 8 ≤ (tss + 4).toNat

variable {T : Type} (L : Layout T)

def Layout.getTopOfStack (t : T) : Nat := L.kernelStack t + 8 * (L.length t - 1) + 8

/-- The bytes of the kernel stack and of the `stack_ptr` field of a thread. -/
abbrev Layout.Owns (t : T) (a : Nat) : Prop :=
  (L.kernelStack t ≤ a ∧ a < L.kernelStack t + 8 * L.length t) ∨
    ((L.stackPtr t).toNat ≤ a ∧ a < (L.stackPtr t).toNat + 8)

variable {L} in
/-- What one thread owns no other owns. -/
theorem Layout.owns_apart {t t' : T} (hne : t ≠ t') {a : Nat} (h : L.Owns t a) : ¬ L.Owns t' a := by
  have h1 := L.stacks_apart t t' hne
  have h2 := L.fields_apart t t' hne
  have h3 := L.field_stack_apart t t'
  have h4 := L.field_stack_apart t' t
  omega

variable {L} in
theorem Layout.tss_apart {t : T} {a : Nat} (h : L.Owns t a) : ¬ ((L.tss + 4).toNat ≤ a ∧ a < (L.tss + 4).toNat + 8) := by
  have h1 := L.tss_stack_apart t
  have h2 := L.tss_field_apart t
  omega

/-- A store to `kernel_stack[i]`. -/
def setStack (t : T) (m : Bytes) (i : Nat) (v : BitVec 64) : Bytes := m.store (L.kernelStack t + 8 * i) 8 v.toNat

def prepareKernelStack (t : T) (m : Bytes) : Bytes :=
  let kickoff := L.kickoffKernelThread
  let thread := L.thread t
  let length := L.length t
  let m := setStack L t m (length - 1) kickoff
  let m := setStack L t m (length - 2) 0
  let m := setStack L t m (length - 3) 0
  let m := setStack L t m (length - 4) 0
  let m := setStack L t m (length - 5) 0
  let m := setStack L t m (length - 6) 0
  let m := setStack L t m (length - 7) 0
  let m := setStack L t m (length - 8) 0
  let m := setStack L t m (length - 9) 0
  let m := setStack L t m (length - 10) 0
  let m := setStack L t m (length - 11) 0
  let m := setStack L t m (length - 12) 0
  let m := setStack L t m (length - 13) 0
  let m := setStack L t m (length - 14) 0
  let m := setStack L t m (length - 15) thread
  let m := setStack L t m (length - 16) 0
  let m := setStack L t m (length - 17) 0x2
  m.store (L.stackPtr t).toNat 8 (m.load (L.stackPtr t).toNat 8 - 8 * 16)

/-- The memory after a thread was created: its stack zeroed and then prepared. -/
def newKernelThread (t : T) (m : Bytes) : Bytes :=
  let zeroed : Bytes := fun a =>
    if L.kernelStack t ≤ a ∧ a < L.kernelStack t + 8 * L.length t then 0 else m a
  prepareKernelStack L t (zeroed.store (L.stackPtr t).toNat 8 (L.kernelStack t + 8 * (L.length t - 1)))

/-- What a thread gets back when it is resumed. -/
structure Context where
  regs : Reg → BitVec 64
  rflags : BitVec 64
  rip : BitVec 64

/-- The context in which a thread is entered for the first time. -/
def initial (t : T) : Context where
  regs r := if r = .rdi then L.thread t else if r = .rsp then BitVec.ofNat 64 (L.getTopOfStack t) else 0
  rflags := 2
  rip := L.kickoffKernelThread

def restoreOrder : List Reg :=
  [.rbp,.rdi,.rsi,.rdx,.rcx,.rbx,.rax,.r15,.r14,.r13,.r12,.r11,.r10,.r9,.r8]

def restore : List Instr := .popfq :: (restoreOrder.map .pop ++ [.ret])

def frame (k : Context) : List (BitVec 64) := k.rflags :: (restoreOrder.map k.regs ++ [k.rip])

private theorem rsp_not_mem : Reg.rsp ∉ restoreOrder := by decide

private theorem mem_restoreOrder {r : Reg} (h : r ≠ .rsp) : r ∈ restoreOrder := by
  cases r <;> first | decide | exact absurd rfl h

variable {L}

/-- The kernel stack of `t` holds the frame of the context `k`, and `stack_ptr` points to it. -/
structure Holds (L : Layout T) (t : T) (m : Bytes) (k : Context) : Prop where
  rsp : m.load (L.stackPtr t).toNat 8 + 8 * 17 = (k.regs .rsp).toNat
  low : L.kernelStack t + 8 ≤ m.load (L.stackPtr t).toNat 8
  high : (k.regs .rsp).toNat ≤ L.kernelStack t + 8 * L.length t
  words : m.Words (m.load (L.stackPtr t).toNat 8) (frame k)

theorem frame_length (k : Context) : (frame k).length = 17 := rfl

theorem Holds.congr {t : T} {m m' : Bytes} {k : Context} (h : Holds L t m k)
    (hfield : ∀ a, (L.stackPtr t).toNat ≤ a → a < (L.stackPtr t).toNat + 8 → m' a = m a)
    (hstack : ∀ a, m.load (L.stackPtr t).toNat 8 ≤ a → a < L.kernelStack t + 8 * L.length t → m' a = m a) :
    Holds L t m' k := by
  have hload : m'.load (L.stackPtr t).toNat 8 = m.load (L.stackPtr t).toNat 8 := Bytes.load_congr hfield
  have hrsp := h.rsp
  have hhigh := h.high
  refine ⟨?_,?_,hhigh,?_⟩
  · rw [hload,hrsp]
  · rw [hload]
    exact h.low
  · rw [hload]
    apply h.words.congr
    intro a h1 h2
    rw [frame_length] at h2
    exact hstack a h1 (by omega)

/-- Popping a frame brings its context back. -/
theorem exec_restore {s : Cpu} {k : Context} (hw : s.mem.Words (s.regs .rsp).toNat (frame k))
    (hrsp : (s.regs .rsp).toNat + 8 * 17 = (k.regs .rsp).toNat) :
    (s.exec restore).regs = k.regs ∧ (s.exec restore).rflags = k.rflags ∧ (s.exec restore).rip = k.rip ∧
      (s.exec restore).mem = s.mem := by
  have hlt := (k.regs .rsp).isLt
  obtain ⟨hflags,hrsp1,hmem1⟩ := Cpu.popfq_spec hw (by omega)
  have hw1 : (s.step .popfq).mem.Words ((s.step .popfq).regs .rsp).toNat (restoreOrder.map k.regs ++ [k.rip]) := by
    rw [hrsp1,hmem1]
    exact hw.2
  have hlen : restoreOrder.length = 15 := rfl
  have hpop := Cpu.popped_exec rsp_not_mem hw1 (by omega)
  obtain ⟨hrip,hrsp2,hregs,hflags2,hmem2⟩ := Cpu.ret_spec hpop.words (by rw [hpop.rsp,hrsp1,hlen]; omega)
  have hexec : s.exec restore = ((s.step .popfq).exec (restoreOrder.map .pop)).ret := by
    rw [restore,Cpu.exec_cons,Cpu.exec_append]
    rfl
  rw [hexec]
  refine ⟨?_,?_,hrip,?_⟩
  · funext r
    by_cases hr : r = .rsp
    · subst hr
      apply BitVec.eq_of_toNat_eq
      rw [hrsp2,hpop.rsp,hrsp1,hlen]
      omega
    · rw [hregs r hr,hpop.popped r (mem_restoreOrder hr)]
  · rw [hflags2,hpop.rflags,hflags]
  · rw [hmem2,hpop.mem,hmem1]

/-- The pushes of a call and of the saved registers make the frame of the caller's context. -/
theorem pushed_frame {s : Cpu} (back : BitVec 64) (hroom : 8 * 17 ≤ (s.regs .rsp).toNat) :
    ∃ vs, vs.reverse = frame ⟨s.regs,s.rflags,back⟩ ∧
      s.Pushed vs (((s.push back).exec (restoreOrder.reverse.map .push)).step .pushfq) := by
  have hcall := Cpu.pushed_push (show 8 ≤ (s.regs .rsp).toNat by omega) back
  have hrsp := hcall.rsp
  rw [List.length_singleton] at hrsp
  have hlen : restoreOrder.reverse.length = 15 := rfl
  have hnot : Reg.rsp ∉ restoreOrder.reverse := fun h => rsp_not_mem (List.mem_reverse.mp h)
  have hregs := Cpu.pushed_exec hnot
    (show 8 * restoreOrder.reverse.length ≤ ((s.push back).regs .rsp).toNat by omega)
  have hrsp' := hregs.rsp
  rw [List.length_map,hlen] at hrsp'
  have hflags := Cpu.pushed_push
    (show 8 ≤ (((s.push back).exec (restoreOrder.reverse.map .push)).regs .rsp).toNat by omega)
    ((s.push back).exec (restoreOrder.reverse.map .push)).rflags
  have hsame : restoreOrder.reverse.map (s.push back).regs = restoreOrder.reverse.map s.regs := by
    apply List.map_congr_left
    intro r hr
    apply hcall.regs
    rintro rfl
    exact hnot hr
  refine ⟨_,?_,(hcall.trans hregs).trans hflags⟩
  rw [hsame,hregs.rflags,hcall.rflags]
  rfl

/-- What `unlock_scheduler` leaves alone, called on the stack of `n`: the stack pointer, and the stacks and
fields of the threads in `alive` but for the part of that stack below the stack pointer. -/
def Unlocks (L : Layout T) (alive : T → Prop) (n : T) (unlockScheduler : Cpu → Cpu) : Prop :=
  ∀ s, (unlockScheduler s).regs .rsp = s.regs .rsp ∧ ∀ t, alive t → ∀ a, L.Owns t a →
    ¬ (L.kernelStack n ≤ a ∧ a < (s.regs .rsp).toNat) → (unlockScheduler s).mem a = s.mem a

/-- `s'` runs in the context `k` on the stack of `n`, and the other threads have kept their memory. -/
structure Resumed (L : Layout T) (alive : T → Prop) (n : T) (k : Context) (s s' : Cpu) : Prop where
  regs : s'.regs = k.regs
  rflags : s'.rflags = k.rflags
  rip : s'.rip = k.rip
  others : ∀ t, alive t → t ≠ n → ∀ a, L.Owns t a → s'.mem a = s.mem a

section
variable {alive : T → Prop} {n : T} {unlockScheduler : Cpu → Cpu} {s : Cpu} {k : Context}

private theorem exec_resume (hu : Unlocks L alive n unlockScheduler) (hn : alive n) (hk : Holds L n s.mem k)
    (hrsp : (s.regs .rsp).toNat = s.mem.load (L.stackPtr n).toNat 8) (back : BitVec 64) :
    Resumed L alive n k s ((s.step (.call back unlockScheduler)).exec restore) := by
  have hlow := hk.low
  have hhigh := hk.high
  have hk17 := hk.rsp
  have hpush := Cpu.pushed_push (show 8 ≤ (s.regs .rsp).toNat by omega) back
  have hprsp := hpush.rsp
  rw [List.length_singleton] at hprsp
  obtain ⟨hursp,hmem⟩ := hu (s.push back)
  obtain ⟨hcrsp,hcmem⟩ := Cpu.call_spec hursp
  have hwords : (s.step (.call back unlockScheduler)).mem.Words
      ((s.step (.call back unlockScheduler)).regs .rsp).toNat (frame k) := by
    rw [hcmem,hcrsp,hrsp]
    apply hk.words.congr
    intro a h1 h2
    rw [frame_length] at h2
    rw [hmem n hn a (.inl ⟨by omega,by omega⟩) (by omega),hpush.frame a (by omega)]
  obtain ⟨h1,h2,h3,h4⟩ := exec_restore hwords (by rw [hcrsp]; omega)
  refine ⟨h1,h2,h3,?_⟩
  intro t ht hne a ha
  obtain ⟨hstack,_⟩ := not_or.mp (L.owns_apart hne ha)
  have hbelow : ¬ (L.kernelStack n ≤ a ∧ a < (s.regs .rsp).toNat) := by omega
  rw [h4,hcmem,hmem t ht a ha (by omega),hpush.frame a (by omega)]

/-- Starting the thread `n`. -/
theorem start_spec (hu : Unlocks L alive n unlockScheduler) (hn : alive n) (hk : Holds L n s.mem k)
    (hrdi : (s.regs .rdi).toNat = s.mem.load (L.stackPtr n).toNat 8) (back : BitVec 64) :
    Resumed L alive n k s (s.exec (threadStart back unlockScheduler)) := by
  have hcode : threadStart back unlockScheduler =
      .mov .rsp .rdi :: .call back unlockScheduler :: restore := rfl
  have hrsp : ((s.step (.mov .rsp .rdi)).regs .rsp).toNat =
      (s.step (.mov .rsp .rdi)).mem.load (L.stackPtr n).toNat 8 := by
    rw [Cpu.step,Cpu.set_self]
    exact hrdi
  have hk' : Holds L n (s.step (.mov .rsp .rdi)).mem k := hk
  obtain ⟨h1,h2,h3,h4⟩ := exec_resume hu hn hk' hrsp back
  rw [hcode,Cpu.exec_cons,Cpu.exec_cons]
  exact ⟨h1,h2,h3,h4⟩

/-- The first half of a switch, up to the change of the stack. -/
def leave (tss back : BitVec 64) : List Instr :=
  [.store .rdi 0 .rsp,.mov .rdi .rdx,.call back (tssSetRsp0 tss),.mov .rsp .rsi]

private theorem leave_mem (tss back : BitVec 64) :
    (s.exec (leave tss back)).mem =
      ((s.mem.store (s.regs .rdi).toNat 8 (s.regs .rsp).toNat).store (s.regs .rsp - 8).toNat 8 back.toNat).store
        (tss + 4).toNat 8 (s.regs .rdx).toNat := by
  have hrdi : s.regs .rdi + 0 = s.regs .rdi := BitVec.add_zero _
  rw [← hrdi]
  rfl

private theorem leave_rsp (tss back : BitVec 64) : (s.exec (leave tss back)).regs .rsp = s.regs .rsi := rfl

/-- Leaving the stack of `c` saves the context of the caller there. -/
private theorem exec_leave {c : T} {vs : List (BitVec 64)} {s₀ : Cpu} (hs : s₀.Pushed vs s)
    (hvs : vs.reverse = frame k) (hk : k.regs .rsp = s₀.regs .rsp) (hrdi : s₀.regs .rdi = L.stackPtr c)
    (hlow : L.kernelStack c + 8 * 18 ≤ (s₀.regs .rsp).toNat)
    (hhigh : (s₀.regs .rsp).toNat ≤ L.kernelStack c + 8 * L.length c) (back : BitVec 64) :
    Holds L c (s.exec (leave L.tss back)).mem k ∧
      ∀ t, t ≠ c → ∀ a, L.Owns t a → (s.exec (leave L.tss back)).mem a = s₀.mem a := by
  have hlen : vs.length = 17 := by
    rw [← List.length_reverse,hvs,frame_length]
  have hrsp := hs.rsp
  rw [hlen] at hrsp
  have hsub : (s.regs .rsp - 8).toNat = (s.regs .rsp).toNat - 8 :=
    BitVec.toNat_sub_of_le (show 8 ≤ (s.regs .rsp).toNat by omega)
  have hwords := hs.words [] trivial
  rw [List.append_nil,hvs] at hwords
  have hts := L.tss_stack_apart c
  have htf := L.tss_field_apart c
  have hfs := L.field_stack_apart c c
  rw [leave_mem,hs.regs .rdi (by decide),hrdi,hsub]
  constructor
  · have hload : (((s.mem.store (L.stackPtr c).toNat 8 (s.regs .rsp).toNat).store ((s.regs .rsp).toNat - 8) 8
        back.toNat).store (L.tss + 4).toNat 8 (s.regs .rdx).toNat).load (L.stackPtr c).toNat 8 =
        (s.regs .rsp).toNat := by
      rw [Bytes.load_store_apart _ _ (by omega),Bytes.load_store_apart _ _ (by omega),
        Bytes.load_store_of_lt _ (s.regs .rsp).isLt]
    refine ⟨?_,?_,?_,?_⟩
    · rw [hload,hk,hrsp]
    · rw [hload]
      omega
    · rw [hk]
      exact hhigh
    · rw [hload]
      apply hwords.congr
      intro a h1 h2
      rw [frame_length] at h2
      rw [Bytes.store_of_not_mem _ _ (by omega),Bytes.store_of_not_mem _ _ (by omega),
        Bytes.store_of_not_mem _ _ (by omega)]
  · intro t hne a ha
    obtain ⟨hstack,hfield⟩ := not_or.mp (L.owns_apart hne ha)
    have htss := L.tss_apart ha
    have hbelow : ¬ ((s.regs .rsp).toNat - 8 ≤ a ∧ a < (s₀.regs .rsp).toNat) := by omega
    clear ha hts htf hfs hstack
    rw [Bytes.store_of_not_mem _ _ htss,Bytes.store_of_not_mem _ _ (by omega),Bytes.store_of_not_mem _ _ hfield,
      hs.frame a (by omega)]

/-- Switching from `c` to `n`: the context of the caller is saved on the stack of `c` and that of `n` is
back. -/
theorem switch_spec {c : T} (hu : Unlocks L alive n unlockScheduler) (hn : alive n) (hc : alive c) (hne : n ≠ c)
    (hk : Holds L n s.mem k) (hrdi : s.regs .rdi = L.stackPtr c)
    (hrsi : (s.regs .rsi).toNat = s.mem.load (L.stackPtr n).toNat 8)
    (hlow : L.kernelStack c + 8 * 18 ≤ (s.regs .rsp).toNat)
    (hhigh : (s.regs .rsp).toNat ≤ L.kernelStack c + 8 * L.length c) (back back' back'' : BitVec 64) :
    Resumed L (fun t => alive t ∧ t ≠ c) n k s
        ((s.push back).exec (threadSwitch L.tss back' back'' unlockScheduler)) ∧
      Holds L c ((s.push back).exec (threadSwitch L.tss back' back'' unlockScheduler)).mem
        ⟨s.regs,s.rflags,back⟩ := by
  obtain ⟨vs,hvs,hs⟩ := pushed_frame back (show 8 * 17 ≤ (s.regs .rsp).toNat by omega)
  obtain ⟨hsaved,hothers⟩ := exec_leave hs hvs rfl hrdi hlow hhigh back'
  have hcode : threadSwitch L.tss back' back'' unlockScheduler =
      restoreOrder.reverse.map .push ++ (.pushfq :: (leave L.tss back' ++
        (.call back'' unlockScheduler :: restore))) := rfl
  rw [hcode,Cpu.exec_append,Cpu.exec_cons,Cpu.exec_append,Cpu.exec_cons]
  generalize ((s.push back).exec (restoreOrder.reverse.map .push)).step .pushfq = s₁ at *
  have hkeep : Holds L n (s₁.exec (leave L.tss back')).mem k := by
    apply hk.congr
    · intro a h1 h2
      exact hothers n hne a (.inr ⟨h1,h2⟩)
    · intro a h1 h2
      have hl := hk.low
      exact hothers n hne a (.inl ⟨by omega,h2⟩)
  have hload : s.mem.load (L.stackPtr n).toNat 8 =
      (s₁.exec (leave L.tss back')).mem.load (L.stackPtr n).toNat 8 :=
    Bytes.load_congr fun a h1 h2 => (hothers n hne a (.inr ⟨h1,h2⟩)).symm
  have hrsp : ((s₁.exec (leave L.tss back')).regs .rsp).toNat =
      (s₁.exec (leave L.tss back')).mem.load (L.stackPtr n).toNat 8 := by
    rw [leave_rsp,hs.regs .rsi (by decide),hrsi,hload]
  obtain ⟨h1,h2,h3,h4⟩ := exec_resume hu hn hkeep hrsp back''
  refine ⟨⟨h1,h2,h3,?_⟩,?_⟩
  · rintro t ⟨ht,htc⟩ htn a ha
    rw [h4 t ht htn a ha,hothers t htc a ha]
  · apply hsaved.congr
    · intro a ha1 ha2
      exact h4 c hc hne.symm a (.inr ⟨ha1,ha2⟩)
    · intro a ha1 ha2
      have hl := hsaved.low
      exact h4 c hc hne.symm a (.inl ⟨by omega,ha2⟩)

end

section
variable {t : T}

/-- Stores to the stack from its `i`-th last word downwards. -/
private def setDown (L : Layout T) (t : T) : Nat → List (BitVec 64) → Bytes → Bytes
  | _,[],m => m
  | i,v :: vs,m => setDown L t (i + 1) vs (setStack L t m (L.length t - (i + 1)) v)

private theorem setDown_words {i : Nat} {vs ws : List (BitVec 64)} {m : Bytes}
    (hi : i + vs.length ≤ L.length t) (hw : m.Words (L.kernelStack t + 8 * (L.length t - i)) ws) :
    (setDown L t i vs m).Words (L.kernelStack t + 8 * (L.length t - (i + vs.length))) (vs.reverse ++ ws) := by
  induction vs generalizing i ws m with
  | nil => exact hw
  | cons v vs ih =>
    rw [List.length_cons] at hi
    have hstep : (setStack L t m (L.length t - (i + 1)) v).Words
        (L.kernelStack t + 8 * (L.length t - (i + 1))) (v :: ws) := by
      apply Bytes.Words.store
      rwa [show L.kernelStack t + 8 * (L.length t - (i + 1)) + 8 = L.kernelStack t + 8 * (L.length t - i) by omega]
    have h := ih (show i + 1 + vs.length ≤ L.length t by omega) hstep
    rwa [setDown,List.length_cons,List.reverse_cons,List.append_assoc,
      show i + (vs.length + 1) = i + 1 + vs.length by omega]

private theorem setDown_frame {i : Nat} {vs : List (BitVec 64)} {m : Bytes} (hi : i + vs.length ≤ L.length t)
    {a : Nat} (ha : a < L.kernelStack t ∨ L.kernelStack t + 8 * L.length t ≤ a) :
    setDown L t i vs m a = m a := by
  induction vs generalizing i m with
  | nil => rfl
  | cons v vs ih =>
    rw [List.length_cons] at hi
    rw [setDown,ih (by omega),setStack,Bytes.store_of_not_mem _ _ (by omega)]

private theorem prepareKernelStack_eq (m : Bytes) :
    prepareKernelStack L t m =
      let m' := setDown L t 0 (frame (initial L t)).reverse m
      m'.store (L.stackPtr t).toNat 8 (m'.load (L.stackPtr t).toNat 8 - 8 * 16) := rfl

private theorem length_ge (L : Layout T) (t : T) : 65536 ≤ L.length t := L.capacity t

/-- A new thread holds the frame of its first context. -/
theorem holds_newKernelThread (m : Bytes) : Holds L t (newKernelThread L t m) (initial L t) := by
  have hlen := length_ge L t
  have hbound := L.bounded t
  have hapart := L.field_stack_apart t t
  have h17 : (frame (initial L t)).reverse.length = 17 := rfl
  have htop : ((initial L t).regs .rsp).toNat = L.kernelStack t + 8 * L.length t := by
    change (BitVec.ofNat 64 (L.kernelStack t + 8 * (L.length t - 1) + 8)).toNat = _
    rw [BitVec.toNat_ofNat,Nat.mod_eq_of_lt (by omega)]
    omega
  rw [newKernelThread,prepareKernelStack_eq]
  generalize hz : Bytes.store _ (L.stackPtr t).toNat 8 (L.kernelStack t + 8 * (L.length t - 1)) = m₀
  have hload : (setDown L t 0 (frame (initial L t)).reverse m₀).load (L.stackPtr t).toNat 8 =
      L.kernelStack t + 8 * (L.length t - 1) := by
    rw [Bytes.load_congr fun a h1 h2 => setDown_frame (by omega) (show a < _ ∨ _ ≤ a by omega),← hz]
    exact Bytes.load_store_of_lt _ (show _ < 256^8 by omega)
  have hptr : L.kernelStack t + 8 * (L.length t - 1) - 8 * 16 < 256^8 := by omega
  have hwords := @setDown_words T L t 0 (frame (initial L t)).reverse [] m₀ (by omega) trivial
  rw [List.append_nil,List.reverse_reverse,h17] at hwords
  simp only [hload]
  refine ⟨?_,?_,?_,?_⟩
  · rw [Bytes.load_store_of_lt _ hptr,htop]
    omega
  · rw [Bytes.load_store_of_lt _ hptr]
    omega
  · rw [htop]
  · rw [Bytes.load_store_of_lt _ hptr,
      show L.kernelStack t + 8 * (L.length t - 1) - 8 * 16 = L.kernelStack t + 8 * (L.length t - (0 + 17)) by omega]
    apply hwords.congr
    intro a h1 h2
    rw [frame_length] at h2
    exact Bytes.store_of_not_mem _ _ (by omega)

/-- Creating a thread writes its own stack and field only. -/
theorem newKernelThread_frame (m : Bytes) {a : Nat} (ha : ¬ L.Owns t a) : newKernelThread L t m a = m a := by
  have hlen := length_ge L t
  have h17 : (frame (initial L t)).reverse.length = 17 := rfl
  rw [newKernelThread,prepareKernelStack_eq]
  dsimp only
  rw [Bytes.store_of_not_mem _ _ (by omega),setDown_frame (by omega) (by omega),
    Bytes.store_of_not_mem _ _ (by omega)]
  exact if_neg (by omega)

end

end HeineOS.Switch
