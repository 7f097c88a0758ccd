import HeineOS.Allocator.Layout
import HeineOS.Syscall.Threads

/-! What threads in ring 3 see of the kernel: their system calls and interrupts, whatever runs in between. -/
namespace HeineOS.Usermode
open Lib Switch Syscall

variable {T : Type} [DecidableEq T] {M : Machine T} {s s' : State T} {l : Label T} {t : T}

/-- An open entry stays until its thread returns to ring 3. -/
private theorem entry_step (hi : Inv M s) (hs : Step M s l s') (hopen : s.entry t ≠ .outside)
    (hl : l ≠ .sysret t ∧ l ≠ .iret t) : s'.entry t = s.entry t := by
  have hother : ∀ {t' : T} (e : Entry), t' ≠ t → setEntry s t' e t = s.entry t :=
    fun e h => Function.update_of_ne (Ne.symm h) _ _
  have hring : ∀ {t' : T}, s.core.cpl = 3 → s.cur = some t' → t' ≠ t := by
    rintro t' hcpl hcur rfl
    obtain ⟨-,-,t'',hcur',hout⟩ := cpl_three hi hcpl
    obtain rfl : t' = t'' := Option.some.inj (hcur.symm.trans hcur')
    exact hopen hout
  cases hs with
  | syscall hcpl hcur hint h => exact hother _ (hring hcpl hcur)
  | interrupt hcpl hcur hv h => exact hother _ (hring hcpl hcur)
  | sysret hcpl hcur hentry hrsp h => exact hother _ fun he => hl.1 (he ▸ rfl)
  | iret hcpl hcur hentry hrsp hregs h => exact hother _ fun he => hl.2 (he ▸ rfl)
  | _ => rfl

private theorem entry_run {ls : List (Label T)} (hi : Inv M s) (hr : (system M).Run s ls s')
    (hopen : s.entry t ≠ .outside) (hls : ∀ l ∈ ls, l ≠ .sysret t ∧ l ≠ .iret t) : s'.entry t = s.entry t := by
  induction hr with
  | nil => rfl
  | cons hs hr ih =>
    have hstay := entry_step hi hs hopen (hls _ List.mem_cons_self)
    rw [ih (inv_step hi hs) (hstay ▸ hopen) fun l hm => hls l (List.mem_cons_of_mem _ hm),hstay]

private theorem syscall_entry {back : BitVec 64} (hs : Step M s (.syscall t back) s') :
    s'.entry t = .syscall (.of s.core back) := by
  cases hs with
  | syscall hcpl hcur hint h => exact Function.update_self _ _ _

private theorem cur_syscall {back : BitVec 64} (hs : Step M s (.syscall t back) s') : s'.cur = some t := by
  cases hs with
  | syscall hcpl hcur hint h => exact hcur

private theorem interrupt_entry {v : Nat} (hs : Step M s (.interrupt t v) s') :
    s'.entry t = .interrupt (.of s.core s.core.cpu.rip) := by
  cases hs with
  | interrupt hcpl hcur hv h => exact Function.update_self _ _ _

private theorem sysret_restores (hi : Inv M s) {k : UserContext} (hk : s.entry t = .syscall k)
    (hs : Step M s (.sysret t) s') : s'.cur = some t ∧ Restored s.core k s'.core := by
  cases hs with
  | sysret hcpl hcur hentry hrsp h =>
    obtain ⟨c',hc',hres⟩ := restored_sysret hi hcpl hk hrsp
    rw [h] at hc'
    cases hc'
    exact ⟨hcur,hres⟩

private theorem iret_restores (hi : Inv M s) {k : UserContext} (hk : s.entry t = .interrupt k)
    (hs : Step M s (.iret t) s') :
    s'.cur = some t ∧ Restored s.core k s'.core ∧ s.core.cpu.regs .rax = k.regs .rax := by
  cases hs with
  | @iret _ k' c' hcpl hcur hentry hrsp hregs h =>
    obtain rfl : k' = k := by
      rw [hentry] at hk
      cases hk
      rfl
    obtain ⟨c'',hc'',hres⟩ := restored_iret hi hcpl hk hrsp hregs
    rw [h] at hc''
    cases hc''
    exact ⟨hcur,hres,hregs .rax (by decide)⟩

/-- In every run, a thread comes back from a system call behind its `int 0x80`, in ring 3, with all registers but
`rax`, its flags and its stack, and in `rax` what the function of the kernel has left there; from an interrupt it
comes back to where it was with all registers. In between the thread may have been switched away and back, and
the others may have done what they like. -/
theorem entry_transparent (M : Machine T) {s s₁ s₂ s₃ : State T} {ls : List (Label T)} {t : T}
    (hs : (system M).Reachable s) (hrun : (system M).Run s₁ ls s₂)
    (hinside : ∀ l ∈ ls, l ≠ .sysret t ∧ l ≠ .iret t) :
    (∀ back, (system M).step s (.syscall t back) s₁ → (system M).step s₂ (.sysret t) s₃ →
      s₃.cur = some t ∧ (∀ r, r ≠ .rax → s₃.core.cpu.regs r = s.core.cpu.regs r) ∧
        s₃.core.cpu.regs .rax = s₂.core.cpu.regs .rax ∧ s₃.core.cpu.rflags = s.core.cpu.rflags ∧
        s₃.core.cpu.rip = back ∧ s₃.core.cs = s.core.cs ∧ s₃.core.ss = s.core.ss) ∧
    (∀ v, (system M).step s (.interrupt t v) s₁ → (system M).step s₂ (.iret t) s₃ →
      s₃.cur = some t ∧ s₃.core.cpu.regs = s.core.cpu.regs ∧ s₃.core.cpu.rflags = s.core.cpu.rflags ∧
        s₃.core.cpu.rip = s.core.cpu.rip ∧ s₃.core.cs = s.core.cs ∧ s₃.core.ss = s.core.ss) := by
  have hi := inv_reachable hs
  constructor
  · intro back hfirst hlast
    have hi₁ := inv_step hi hfirst
    have hi₂ := hrun.invariant (fun _ _ _ => inv_step) hi₁
    have hentry := syscall_entry hfirst
    have hkept := entry_run hi₁ hrun (by rw [hentry]; nofun) hinside
    obtain ⟨hcur,hres⟩ := sysret_restores hi₂ (hkept.trans hentry) hlast
    exact ⟨hcur,hres.regs,hres.rax,hres.rflags,hres.rip,hres.cs,hres.ss⟩
  · intro v hfirst hlast
    have hi₁ := inv_step hi hfirst
    have hi₂ := hrun.invariant (fun _ _ _ => inv_step) hi₁
    have hentry := interrupt_entry hfirst
    have hkept := entry_run hi₁ hrun (by rw [hentry]; nofun) hinside
    obtain ⟨hcur,hres,hrax⟩ := iret_restores hi₂ (hkept.trans hentry) hlast
    refine ⟨hcur,?_,hres.rflags,hres.rip,hres.cs,hres.ss⟩
    funext r
    by_cases hr : r = .rax
    · subst hr
      rw [hres.rax,hrax]
      rfl
    · exact hres.regs r hr

/-- The flags that the trap gate clears: TF, NT, RF and VM. -/
def trapGateBits : List Nat := [8,14,16,17]

private theorem trapGate_other (rflags : BitVec 64) {i : Nat} (hi : i ∉ trapGateBits) :
    (Core.gateFlags 15 rflags).getLsbD i = rflags.getLsbD i := by
  have hmask : (0x34100 : BitVec 64).getLsbD i = false := by
    by_cases hlt : i < 18
    · have hall : ∀ i < 18, i ∉ trapGateBits → (0x34100 : BitVec 64).getLsbD i = false := by decide
      exact hall i hlt hi
    · have hpow : 0x34100 < 2^i :=
        lt_of_lt_of_le (show 0x34100 < 2^18 by decide) (Nat.pow_le_pow_right (by decide) (by omega))
      change (BitVec.ofNat 64 0x34100).getLsbD i = false
      rw [BitVec.getLsbD_ofNat,Nat.testBit_lt_two_pow hpow,Bool.and_false]
  rw [Core.gateFlags,if_neg (by decide),BitVec.getLsbD_and,BitVec.getLsbD_not,hmask,Bool.not_false,Bool.and_true]
  by_cases hlt : i < 64
  · rw [decide_eq_true hlt,Bool.and_true]
  · rw [BitVec.getLsbD_of_ge _ _ (Nat.le_of_not_lt hlt),Bool.false_and]

/-- `int 0x80` from ring 3 with the number of a function in `rax` gets to the function. -/
private theorem syscall_step (hi : Inv M s) (hring : s.core.cpl = 3) (hcur : s.cur = some t) (back : BitVec 64)
    (hlt : (s.core.cpu.regs .rax).toNat < 8) : ∃ c', Step M s (.syscall t back)
      { s with core := c', entry := setEntry s t (.syscall (.of s.core back)) } ∧ c'.cpl = 0 ∧
      (SyscallFunctionTable.new M.functions)[(s.core.cpu.regs .rax).toNat]? = some c'.cpu.rip ∧
      (∀ r, r ≠ .rsp → c'.cpu.regs r = s.core.cpu.regs r) ∧
      (c'.cpu.regs .rsp).toNat + 8 * 20 = M.base t ∧
      c'.cpu.rflags.getLsbD 0 = true ∧
      (∀ i, i ∉ comparisonBits → i ∉ trapGateBits → c'.cpu.rflags.getLsbD i = s.core.cpu.rflags.getLsbD i) ∧
      ∀ a, ¬ ((c'.cpu.regs .rsp).toNat ≤ a ∧ a < M.base t) → c'.cpu.mem a = s.core.cpu.mem a := by
  obtain ⟨hcs,-,-⟩ := cpl_three hi hring
  obtain ⟨c,hc,hent⟩ := (deliver_user hi.installed hcs (hi.rsp0 t hcur (.inl hcs)) (by decide) back).2 true fun _ => rfl
  obtain ⟨c',hc',hcalled⟩ := (called hi hring hcur hc 0).2 hlt
  have hrsp := hcalled.rsp
  have hersp := hent.rsp
  have hgate : c'.cs = 8 := by
    rw [hcalled.cs,hent.cs,(Idt.gateOf_spec _ _).1]
    rfl
  refine ⟨c',.syscall hring hcur hc hc',?_,hcalled.rip,hcalled.regs,hrsp,?_,?_,?_⟩
  · rw [Core.cpl,hgate]
    decide
  · rw [hcalled.rflags,compareFlags_carry]
    exact decide_eq_true hlt
  · intro i hcmp htrap
    rw [hcalled.rflags,compareFlags_other _ _ _ hcmp,hent.rflags,(Idt.gateOf_spec _ _).2.2.2.1]
    exact trapGate_other _ htrap
  · intro a ha
    rw [hcalled.mem a (by omega),hent.mem a (by omega)]

/-- In every reachable state in ring 3, `int n` raises an exception for every `n` but 0x80. `int 0x80` reaches the
function with the number in `rax` if there is one: in ring 0, with the registers of the caller, twenty words below
the aligned top of the caller's own kernel stack, and with nothing else written. The flags are those of the caller
but for the ones that the gate clears and that the comparison sets. Every other number makes the dispatcher panic. -/
theorem syscall_enters (M : Machine T) {s : State T} {t : T} (hs : (system M).Reachable s) (hring : s.core.cpl = 3)
    (hcur : s.cur = some t) (back : BitVec 64) :
    (∀ v, v < 256 → (s.core.deliver M.tables true v back = none ↔ v ≠ 0x80)) ∧
    (∀ back' c, s.core.deliver M.tables true 0x80 back = some c →
      (dispatchSyscall M.functions back' c = none ↔ 8 ≤ (s.core.cpu.regs .rax).toNat)) ∧
    ((s.core.cpu.regs .rax).toNat < 8 → ∃ s', (system M).step s (.syscall t back) s' ∧ s'.core.cpl = 0 ∧
      (SyscallFunctionTable.new M.functions)[(s.core.cpu.regs .rax).toNat]? = some s'.core.cpu.rip ∧
      (∀ r, r ≠ .rsp → s'.core.cpu.regs r = s.core.cpu.regs r) ∧
      (s'.core.cpu.regs .rsp).toNat + 8 * 20 = M.getTopOfStack t / 16 * 16 ∧
      s'.core.cpu.rflags.getLsbD 0 = true ∧
      (∀ i, i ∉ comparisonBits → i ∉ trapGateBits → s'.core.cpu.rflags.getLsbD i = s.core.cpu.rflags.getLsbD i) ∧
      ∀ a, ¬ ((s'.core.cpu.regs .rsp).toNat ≤ a ∧ a < M.getTopOfStack t / 16 * 16) →
        s'.core.cpu.mem a = s.core.cpu.mem a) := by
  have hi := inv_reachable hs
  obtain ⟨hcs,-,-⟩ := cpl_three hi hring
  have hrsp0 := hi.rsp0 t hcur (.inl hcs)
  have hdeliver := fun v hv => deliver_user (v := v) hi.installed hcs hrsp0 hv back
  refine ⟨fun v hv => (hdeliver v hv).1,?_,?_⟩
  · intro back' c hc
    obtain ⟨hnone,hsome⟩ := called hi hring hcur hc back'
    refine ⟨?_,hnone⟩
    intro h
    by_contra hlt
    obtain ⟨c',hc',-⟩ := hsome (Nat.lt_of_not_le hlt)
    rw [h] at hc'
    cases hc'
  · intro hlt
    obtain ⟨c',hstep,hspec⟩ := syscall_step hi hring hcur back hlt
    exact ⟨_,hstep,hspec⟩

/-- Only user threads are in ring 3 or have come from there. -/
private def UserOnly (M : Machine T) (s : State T) : Prop :=
  ∀ t, (s.core.cs = 27 ∧ s.cur = some t) ∨ s.entry t ≠ .outside → M.isKernelThread t = false

private theorem userOnly_setEntry {c' : Core} {e : Entry} (hu : UserOnly M s) (hcur : s.cur = some t)
    (ht : M.isKernelThread t = false) : UserOnly M { s with core := c', entry := setEntry s t e } := by
  rintro t' (⟨-,hcur'⟩ | h)
  · obtain rfl : t = t' := Option.some.inj (hcur.symm.trans hcur')
    exact ht
  · by_cases hne : t' = t
    · rw [hne,ht]
    · simp only [setEntry, Function.update_of_ne hne] at h
      exact hu t' (.inr h)

private theorem userOnly_step (hi : Inv M s) (hu : UserOnly M s) (hs : Step M s l s') : UserOnly M s' := by
  have hring0 : s.core.cpl = 0 → s.core.cs ≠ 27 := by
    intro h hcs
    rw [Core.cpl,hcs] at h
    exact absurd h (by decide)
  cases hs with
  | spawn h hcpl => exact hu
  | kernel hcpl hothers hfixed hframe => exact hu
  | user hcpl howned hfixed => exact hu
  | start hcpl hcur hn hrdi hq =>
    rintro t (⟨h,-⟩ | h)
    · exact absurd h (hring0 hcpl)
    · exact hu t (.inr h)
  | switch hcpl hcur hne hn hcall hbelow hq =>
    rintro t (⟨h,-⟩ | h)
    · exact absurd h (hring0 hcpl)
    · exact hu t (.inr h)
  | @kickoff t c' hcpl hcur hentry h =>
    rintro t' (⟨hcs,hcur'⟩ | h')
    · obtain rfl : t = t' := Option.some.inj (hcur.symm.trans hcur')
      cases hkind : M.isKernelThread t with
      | false => rfl
      | true =>
        rw [kickoffKernelThread,hkind] at h
        simp only [if_true, Option.some.injEq] at h
        rw [← h] at hcs
        exact absurd hcs (hring0 hcpl)
    · exact hu t' (.inr h')
  | syscall hcpl hcur hint h => exact userOnly_setEntry hu hcur (hu _ (.inl ⟨(cpl_three hi hcpl).1,hcur⟩))
  | interrupt hcpl hcur hv h => exact userOnly_setEntry hu hcur (hu _ (.inl ⟨(cpl_three hi hcpl).1,hcur⟩))
  | sysret hcpl hcur hentry hrsp h => exact userOnly_setEntry hu hcur (hu _ (.inr (by rw [hentry]; intro habs; cases habs)))
  | iret hcpl hcur hentry hrsp hregs h => exact userOnly_setEntry hu hcur (hu _ (.inr (by rw [hentry]; intro habs; cases habs)))

private theorem userOnly_reachable (h : (system M).Reachable s) : UserOnly M s := by
  have hboth : Inv M s ∧ UserOnly M s := by
    refine h.invariant (P := fun s => Inv M s ∧ UserOnly M s) ?_ ?_
    · intro s hinit
      refine ⟨inv_reachable (.of_init hinit),?_⟩
      obtain ⟨-,hcur,-,hentry,-⟩ := hinit
      rintro t (⟨-,h⟩ | h)
      · rw [hcur] at h
        cases h
      · exact absurd (hentry t) h
    · intro s l s' hi hs
      exact ⟨inv_step hi.1 hs,userOnly_step hi.1 hi.2 hs⟩
  exact hboth.2

/-- In every reachable state the processor is in ring 0 on the kernel's code segment, or in ring 3 on the user
segments: then it runs a user thread, `rsp0` names that thread's kernel stack, nothing is left on that stack of an
earlier entry, and every hardware interrupt enters the kernel there with interrupts disabled. -/
theorem ring3_owner (M : Machine T) {s : State T} (hs : (system M).Reachable s) :
    s.core.cs = 8 ∨ s.core.cs = 27 ∧ s.core.ss = 35 ∧ ∃ t, s.cur = some t ∧ M.isKernelThread t = false ∧
      s.entry t = .outside ∧ s.core.cpu.mem.load (M.tss + 4).toNat 8 = M.getTopOfStack t ∧
      ∀ v, v < 256 → v ≠ 0x80 → ∃ c, s.core.deliver M.tables false v s.core.cpu.rip = some c ∧ c.cs = 8 ∧
        c.cpu.rip = M.handlers.wrapper v ∧ c.cpu.rflags.getLsbD 9 = false ∧
        (c.cpu.regs .rsp).toNat + 40 = M.getTopOfStack t / 16 * 16 ∧
        ∀ a, ¬ ((c.cpu.regs .rsp).toNat ≤ a ∧ a < M.getTopOfStack t / 16 * 16) → c.cpu.mem a = s.core.cpu.mem a := by
  have hi := inv_reachable hs
  rcases hi.mode with hcs | ⟨hcs,hss,t,hcur,hout⟩
  · exact .inl hcs
  · refine .inr ⟨hcs,hss,t,hcur,userOnly_reachable hs t (.inl ⟨hcs,hcur⟩),hout,hi.rsp0 t hcur (.inl hcs),?_⟩
    intro v hv hne
    obtain ⟨c,hc,hent⟩ := (deliver_user hi.installed hcs (hi.rsp0 t hcur (.inl hcs)) hv s.core.cpu.rip).2 false nofun
    refine ⟨c,hc,?_,?_,?_,hent.rsp,hent.mem⟩
    · rw [hent.cs,(Idt.gateOf_spec _ _).1]
      rfl
    · rw [hent.rip,Idt.gateOf,if_neg hne]
      exact (BitVec.ofNat_toNat _ _).trans (BitVec.setWidth_eq _)
    · rw [hent.rflags,(Idt.gateOf_spec _ _).2.2.2.1,if_neg hne]
      simp [Core.gateFlags]

/-- Wherever the kernel runs `kickoff_kernel_thread` for a user thread without an open entry, the thread gets into
ring 3: at its first function with its own address as argument, eight bytes off a multiple of sixteen at the top of
its user stack, with interrupts enabled and `rsp0` on its kernel stack. -/
theorem user_start (M : Machine T) {s : State T} {t : T} (hs : (system M).Reachable s) (hring : s.core.cpl = 0)
    (hcur : s.cur = some t) (hentry : s.entry t = .outside) (huser : M.isKernelThread t = false)
    (hstack : 24 ≤ (M.userTop t).toNat) :
    ∃ s', (system M).step s (.kickoff t) s' ∧ s'.core.cpl = 3 ∧ s'.core.cpu.rip = M.kickoffUserThread ∧
      s'.core.cpu.regs .rdi = M.thread t ∧ (s'.core.cpu.regs .rsp).toNat % 16 = 8 ∧
      (s'.core.cpu.regs .rsp).toNat < (M.userTop t).toNat ∧
      (M.userTop t).toNat ≤ (s'.core.cpu.regs .rsp).toNat + 24 ∧ s'.core.cpu.rflags.getLsbD 9 = true ∧
      s'.core.cpu.mem.load (M.tss + 4).toNat 8 = M.getTopOfStack t := by
  have hi := inv_reachable hs
  obtain ⟨c',hc',hstart,-⟩ := kickoff_user hi.installed hring huser
  have hstep : Step M s (.kickoff t) { s with core := c' } := .kickoff hring hcur hentry hc'
  have hmask : (M.userTop t &&& ~~~0xf).toNat = (M.userTop t).toNat / 16 * 16 :=
    (BitVec.toNat_and _ _).trans (Usize.and_not_mask (k := 4) (M.userTop t).isLt (by decide))
  have hrsp : (c'.cpu.regs .rsp).toNat = (M.userTop t).toNat / 16 * 16 - 8 := by
    rw [hstart.rsp,BitVec.toNat_sub_of_le (BitVec.le_def.mpr (by rw [hmask]; change 8 ≤ _; omega)),hmask]
    rfl
  refine ⟨_,hstep,?_,hstart.rip,hstart.rdi,?_,?_,?_,?_,?_⟩
  · change c'.cs.toNat % 4 = 3
    rw [hstart.cs]
    decide
  · change (c'.cpu.regs .rsp).toNat % 16 = 8
    omega
  · change (c'.cpu.regs .rsp).toNat < _
    omega
  · change _ ≤ (c'.cpu.regs .rsp).toNat + 24
    omega
  · change c'.cpu.rflags.getLsbD 9 = true
    rw [hstart.rflags]
    decide
  · exact (inv_step hi hstep).rsp0 t hcur (.inl hstart.cs)

/-- The two threads of before as user threads, with both tables above the task state segment. -/
def userThreads : Machine Bool where
  toLayout := twoThreads
  isKernelThread _ := false
  userTop t := if t then 0x280000 else 0x240000
  kickoffUserThread := 0x9000
  handlers := ⟨fun v => BitVec.ofNat 64 (0xa000 + 16 * v),0xb000⟩
  functions := ⟨0xc000,0xc100,0xc200,0xc300,0xc400,0xc500,0xc600,0xc700⟩
  idt := 0x4000
  gdt := 0x5000
  tss_bounded := by decide
  tables_apart := by decide
  idt_apart := by
    intro a h1 h2
    rw [Idt.idtSize] at h2
    refine ⟨fun h => ?_,fun t h => ?_⟩
    · change 0x3004 ≤ a ∧ a < 0x3004 + 8 at h
      omega
    · cases t
      · change (0x100000 ≤ a ∧ a < 0x100000 + 8 * 65536) ∨ (0x1000 ≤ a ∧ a < 0x1000 + 8) at h
        omega
      · change (0x180000 ≤ a ∧ a < 0x180000 + 8 * 65536) ∨ (0x2000 ≤ a ∧ a < 0x2000 + 8) at h
        omega
  gdt_apart := by
    intro a h1 h2
    refine ⟨fun h => ?_,fun t h => ?_⟩
    · change 0x3004 ≤ a ∧ a < 0x3004 + 8 at h
      omega
    · cases t
      · change (0x100000 ≤ a ∧ a < 0x100000 + 8 * 65536) ∨ (0x1000 ≤ a ∧ a < 0x1000 + 8) at h
        omega
      · change (0x180000 ≤ a ∧ a < 0x180000 + 8 * 65536) ∨ (0x2000 ≤ a ∧ a < 0x2000 + 8) at h
        omega

private theorem booted (M : Machine T) : ∃ z, (system M).Reachable z ∧ z.core.cpl = 0 ∧ z.cur = none ∧
    (∀ t, z.status t = .absent) ∧ ∀ t, z.entry t = .outside := by
  obtain ⟨m,hm⟩ : ∃ m, m = Idt.image (Idt.new M.handlers) M.idt (Gdt.booted M.gdt M.tss fun _ => 0) := ⟨_,rfl⟩
  have hinit : (system M).init ⟨⟨⟨fun _ => 0,2,0,m⟩,8,16⟩,none,fun _ => .absent,fun _ => .outside⟩ :=
    ⟨rfl,rfl,fun _ => rfl,fun _ => rfl,_,hm⟩
  refine ⟨_,.of_init hinit,?_,rfl,fun _ => rfl,fun _ => rfl⟩
  change (8#16).toNat % 4 = 0
  decide

private theorem spawned (h : (system M).Reachable s) (hcpl : s.core.cpl = 0) (ht : s.status t = .absent) :
    ∃ s', (system M).Reachable s' ∧ s'.core.cpl = 0 ∧ s'.cur = s.cur ∧ s'.status t = .fresh ∧ s'.entry = s.entry :=
  ⟨_,h.step (.spawn ht hcpl),hcpl,rfl,Function.update_self _ _ _,rfl⟩

private theorem started (h : (system M).Reachable s) (hcpl : s.core.cpl = 0) (hcur : s.cur = none)
    (ht : s.status t = .fresh) :
    ∃ s', (system M).Reachable s' ∧ s'.core.cpl = 0 ∧ s'.cur = some t ∧ s'.entry = s.entry := by
  let stackPtr := BitVec.ofNat 64 (s.core.cpu.mem.load (M.stackPtr t).toNat 8)
  have hstep : (system M).step s .kernel (s.withCpu (s.core.cpu.set .rdi stackPtr)) :=
    .kernel hcpl (fun _ _ _ _ _ => rfl) (fun _ _ => rfl) fun _ _ _ _ _ => rfl
  have hrdi : ((s.core.cpu.set .rdi stackPtr).regs .rdi).toNat = s.core.cpu.mem.load (M.stackPtr t).toNat 8 := by
    rw [Cpu.set_self,BitVec.toNat_ofNat]
    exact Nat.mod_eq_of_lt (Bytes.load_lt _ _ _)
  exact ⟨_,(h.step hstep).step (@Step.start _ _ M _ t 0 id hcpl hcur ht hrdi (fun _ => ⟨rfl,fun _ _ _ _ _ => rfl⟩)
    fun _ _ _ => rfl),hcpl,rfl,rfl⟩

/-- A thread that has been started and waits for its kickoff. -/
private theorem started_reachable : ∃ s : State Bool, (system userThreads).Reachable s ∧ s.core.cpl = 0 ∧
    s.cur = some false ∧ s.entry false = .outside := by
  obtain ⟨z,hz,hcpl,hcur,hstatus,hentry⟩ := booted userThreads
  obtain ⟨a,ha,haCpl,haCur,haStatus,haEntry⟩ := spawned hz hcpl (hstatus false)
  obtain ⟨b,hb,hbCpl,hbCur,hbEntry⟩ := started ha haCpl (haCur.trans hcur) haStatus
  exact ⟨b,hb,hbCpl,hbCur,by rw [hbEntry,haEntry,hentry]⟩

/-- The thread gets into ring 3. -/
theorem user_start_sample : ∃ s s' : State Bool, (system userThreads).step s (.kickoff false) s' ∧
    s'.core.cpl = 3 ∧ s'.core.cpu.rip = 0x9000 := by
  obtain ⟨s,hs,hcpl,hcur,hentry⟩ := started_reachable
  obtain ⟨s',hstep,hring,hrip,-⟩ := user_start userThreads hs hcpl hcur hentry rfl (by decide)
  exact ⟨s,s',hstep,hring,hrip⟩

/-- A state in ring 3. -/
private theorem ring3_reachable : ∃ s : State Bool, (system userThreads).Reachable s ∧ s.core.cpl = 3 ∧
    s.cur = some false := by
  obtain ⟨s,hs,hcpl,hcur,hentry⟩ := started_reachable
  obtain ⟨c',hc',hstart,-⟩ := kickoff_user (t := false) (inv_reachable hs).installed hcpl rfl
  refine ⟨_,hs.step (.kickoff hcpl hcur hentry hc'),?_,hcur⟩
  change c'.cs.toNat % 4 = 3
  rw [hstart.cs]
  decide

theorem ring3_owner_sample : ∃ s : State Bool, s.core.cs = 27 ∧
    s.core.cpu.mem.load (userThreads.tss + 4).toNat 8 = userThreads.getTopOfStack false := by
  obtain ⟨s,hs,hcpl,hcur⟩ := ring3_reachable
  rcases ring3_owner userThreads hs with hcs | ⟨hcs,-,t,hcur',-,-,hrsp0,-⟩
  · rw [Core.cpl,hcs] at hcpl
    exact absurd hcpl (by decide)
  · obtain rfl : false = t := Option.some.inj (hcur.symm.trans hcur')
    exact ⟨s,hcs,hrsp0⟩

/-- In ring 3 with the number of a system call. -/
private theorem calling_reachable (n : BitVec 64) : ∃ s : State Bool, (system userThreads).Reachable s ∧
    s.core.cpl = 3 ∧ s.cur = some false ∧ s.core.cpu.regs .rax = n := by
  obtain ⟨s,hs,hcpl,hcur⟩ := ring3_reachable
  have hstep : (system userThreads).step s .user (s.withCpu (s.core.cpu.set .rax n)) :=
    .user hcpl (fun _ _ _ _ => rfl) fun _ _ => rfl
  exact ⟨_,hs.step hstep,hcpl,hcur,Cpu.set_self _ _⟩

/-- The system call for the id of the thread. -/
theorem syscall_enters_sample : ∃ s s' : State Bool, (system userThreads).step s (.syscall false 7) s' ∧
    s'.core.cpl = 0 ∧ s'.core.cpu.rip = 0xc400 := by
  obtain ⟨s,hs,hcpl,hcur,hrax⟩ := calling_reachable 4
  obtain ⟨s',hstep,hring,hrip,-⟩ := (syscall_enters userThreads hs hcpl hcur 7).2.2 (by rw [hrax]; decide)
  rw [hrax] at hrip
  exact ⟨s,s',hstep,hring,(Option.some.inj hrip).symm⟩

/-- The function of a system call has returned with the result `v`. -/
private theorem returned {k : UserContext} (hcpl : s.core.cpl = 0) (hcur : s.cur = some t)
    (hentry : s.entry t = .syscall k) (v : BitVec 64) :
    ∃ s', (system M).step s .kernel s' ∧ s'.core.cpl = 0 ∧ s'.cur = some t ∧ s'.entry t = .syscall k ∧
      (s'.core.cpu.regs .rsp).toNat = s'.floor M t ∧ s'.core.cpu.regs .rax = v := by
  have hbase := M.base_le t
  have hbound := M.bounded t
  have hlt : s.floor M t < 2^64 := by
    unfold State.floor
    omega
  refine ⟨s.withCpu ((s.core.cpu.set .rax v).set .rsp (BitVec.ofNat 64 (s.floor M t))),
    .kernel hcpl (fun _ _ _ _ _ => rfl) (fun _ _ => rfl) fun _ _ _ _ _ => rfl,hcpl,hcur,hentry,?_,?_⟩
  · change (Cpu.regs ((s.core.cpu.set .rax v).set .rsp _) .rsp).toNat = s.floor M t
    rw [Cpu.set_self,BitVec.toNat_ofNat,Nat.mod_eq_of_lt hlt]
  · change Cpu.regs ((s.core.cpu.set .rax v).set .rsp _) .rax = v
    rw [Cpu.set_ne _ (by decide),Cpu.set_self]

/-- The call and its return, with 5 as the result. -/
theorem entry_transparent_sample : ∃ s s₁ s₂ s₃ : State Bool, (system userThreads).step s (.syscall false 7) s₁ ∧
    (system userThreads).step s₂ (.sysret false) s₃ ∧ s₃.core.cpu.rip = 7 ∧ s₃.core.cpu.regs .rax = 5 ∧
      s₃.core.cpu.regs .rsp = s.core.cpu.regs .rsp := by
  obtain ⟨s,hs,hcpl,hcur,hrax⟩ := calling_reachable 4
  obtain ⟨c,hfirst,hring,-⟩ := syscall_step (inv_reachable hs) hcpl hcur 7 (by rw [hrax]; decide)
  obtain ⟨s₂,hrun,hcpl₂,hcur₂,hentry,hrsp,hrax₂⟩ := returned hring (cur_syscall hfirst) (syscall_entry hfirst) 5
  obtain ⟨c',hc',-⟩ := restored_sysret (inv_reachable ((hs.step hfirst).step hrun)) hcpl₂ hentry hrsp
  have hlast : (system userThreads).step s₂ (.sysret false) _ := .sysret hcpl₂ hcur₂ hentry hrsp hc'
  have hinside : ∀ l ∈ [Label.kernel], l ≠ Label.sysret false ∧ l ≠ .iret false := by
    intro l hl
    rw [List.mem_singleton.mp hl]
    exact ⟨nofun,nofun⟩
  obtain ⟨-,hregs,hres,-,hrip,-⟩ :=
    (entry_transparent userThreads hs (.cons hrun (.nil _)) hinside).1 7 hfirst hlast
  exact ⟨s,_,s₂,_,hfirst,hlast,hrip,hres.trans hrax₂,hregs .rsp (by decide)⟩

end HeineOS.Usermode
