import HeineOS.Syscall.Usermode

/-! Threads that enter ring 3 and come back by system calls and interrupts, in any order and with any switches in
between. -/
namespace HeineOS.Usermode
open Lib Switch Syscall

/-- By what a thread has entered the kernel from ring 3. -/
inductive Entry where
  | outside
  | syscall (k : UserContext)
  | interrupt (k : UserContext)

/-- What the entry has left at the top of the kernel stack. -/
def Entry.words : Entry → List (BitVec 64)
  | .outside => []
  | .syscall k => k.syscallWords
  | .interrupt k => k.interruptWords

structure State (T : Type) where
  core : Core
  cur : Option T
  status : T → Status
  entry : T → Entry

/-- The thread that a step takes into the kernel or out of it is part of its label. -/
inductive Label (T : Type) where
  | spawn (t : T)
  | kernel
  | user
  | start (n : T)
  | switch (n : T) (back : BitVec 64)
  | kickoff (t : T)
  | syscall (t : T) (back : BitVec 64)
  | sysret (t : T)
  | interrupt (t : T) (v : Nat)
  | iret (t : T)

namespace State
variable {T : Type}

/-- The processor and the threads without rings. -/
def threads (s : State T) : Switch.State T := ⟨s.core.cpu,s.cur,s.status⟩

def Alive (s : State T) (t : T) : Prop := s.threads.Alive t

def withCpu (s : State T) (cpu : Cpu) : State T := { s with core := { s.core with cpu := cpu } }

/-- The lowest byte of what the entry of `t` has left. -/
def floor (M : Machine T) (s : State T) (t : T) : Nat := M.base t - 8 * (s.entry t).words.length

end State

variable {T : Type} [DecidableEq T]

def setEntry (s : State T) (t : T) (e : Entry) : T → Entry := Function.update s.entry t e

/-- `kernel` is any code of the kernel on the stack of the running thread: it does not write to what the other
threads own, to the tables, to `rsp0` or to the frame of its caller. `user` is any code in ring 3 that keeps off
the kernel's memory. A handler returns with the registers that it found. -/
inductive Step (M : Machine T) : State T → Label T → State T → Prop where
  | spawn {s : State T} {t : T} (h : s.status t = .absent) (hcpl : s.core.cpl = 0) :
      Step M s (.spawn t)
        { s.withCpu { s.core.cpu with mem := newKernelThread M.toLayout t s.core.cpu.mem } with
          status := setStatus s.threads t .fresh }
  | kernel {s : State T} {cpu : Cpu} (hcpl : s.core.cpl = 0)
      (hothers : ∀ t, s.Alive t → s.cur ≠ some t → ∀ a, M.Owns t a → cpu.mem a = s.core.cpu.mem a)
      (hfixed : ∀ a, M.Fixed a ∨ M.Rsp0 a → cpu.mem a = s.core.cpu.mem a)
      (hframe : ∀ t, s.cur = some t → ∀ a, s.floor M t ≤ a → a < M.base t → cpu.mem a = s.core.cpu.mem a) :
      Step M s .kernel (s.withCpu cpu)
  | user {s : State T} {cpu : Cpu} (hcpl : s.core.cpl = 3)
      (howned : ∀ t, s.Alive t → ∀ a, M.Owns t a → cpu.mem a = s.core.cpu.mem a)
      (hfixed : ∀ a, M.Fixed a ∨ M.Rsp0 a → cpu.mem a = s.core.cpu.mem a) : Step M s .user (s.withCpu cpu)
  | start {s : State T} {n : T} {back : BitVec 64} {unlockScheduler : Cpu → Cpu} (hcpl : s.core.cpl = 0)
      (hcur : s.cur = none) (hn : s.status n = .fresh)
      (hrdi : (s.core.cpu.regs .rdi).toNat = s.core.cpu.mem.load (M.stackPtr n).toNat 8)
      (hu : Unlocks M.toLayout s.Alive n unlockScheduler) (hq : Quiet M.Fixed unlockScheduler) :
      Step M s (.start n)
        { s.withCpu (s.core.cpu.exec (threadStart back unlockScheduler)) with
          cur := some n, status := setStatus s.threads n .running }
  | switch {s : State T} {c n : T} {back back' back'' : BitVec 64} {unlockScheduler : Cpu → Cpu}
      (hcpl : s.core.cpl = 0) (hcur : s.cur = some c) (hne : n ≠ c) (hn : s.Alive n)
      (hcall : CallsSwitch M.toLayout c n s.core.cpu)
      (hbelow : (s.entry c).words ≠ [] → (s.core.cpu.regs .rsp).toNat ≤ s.floor M c)
      (hu : Unlocks M.toLayout s.Alive n unlockScheduler)
      (hq : Quiet (fun a => M.Fixed a ∨ M.Rsp0 a) unlockScheduler) :
      Step M s (.switch n back)
        { s.withCpu ((s.core.cpu.push back).exec (threadSwitch M.tss back' back'' unlockScheduler)) with
          cur := some n
          status := Function.update
            (setStatus s.threads c (.parked ⟨s.core.cpu.regs,s.core.cpu.rflags,back⟩)) n .running }
  | kickoff {s : State T} {t : T} {c' : Core} (hcpl : s.core.cpl = 0) (hcur : s.cur = some t)
      (hentry : s.entry t = .outside) (h : kickoffKernelThread M t s.core = some c') :
      Step M s (.kickoff t) { s with core := c' }
  | syscall {s : State T} {t : T} {back back' : BitVec 64} {c c' : Core} (hcpl : s.core.cpl = 3)
      (hcur : s.cur = some t) (hint : s.core.deliver M.tables true 0x80 back = some c)
      (h : dispatchSyscall M.functions back' c = some c') :
      Step M s (.syscall t back) { s with core := c', entry := setEntry s t (.syscall (.of s.core back)) }
  | sysret {s : State T} {t : T} {k : UserContext} {c' : Core} (hcpl : s.core.cpl = 0) (hcur : s.cur = some t)
      (hentry : s.entry t = .syscall k) (hrsp : (s.core.cpu.regs .rsp).toNat = s.floor M t)
      (h : returnFromSyscall M.tables s.core = some c') :
      Step M s (.sysret t) { s with core := c', entry := setEntry s t .outside }
  | interrupt {s : State T} {t : T} {v : Nat} {c' : Core} (hcpl : s.core.cpl = 3) (hcur : s.cur = some t)
      (hv : v < Idt.idtSize ∧ v ≠ 0x80 ∧ Idt.pushesErrorCode v = false)
      (h : s.core.deliver M.tables false v s.core.cpu.rip = some c') :
      Step M s (.interrupt t v)
        { s with core := c', entry := setEntry s t (.interrupt (.of s.core s.core.cpu.rip)) }
  | iret {s : State T} {t : T} {k : UserContext} {c' : Core} (hcpl : s.core.cpl = 0) (hcur : s.cur = some t)
      (hentry : s.entry t = .interrupt k) (hrsp : (s.core.cpu.regs .rsp).toNat = s.floor M t)
      (hregs : ∀ r, r ≠ .rsp → s.core.cpu.regs r = k.regs r) (h : s.core.iretq M.tables = some c') :
      Step M s (.iret t) { s with core := c', entry := setEntry s t .outside }

/-- The kernel starts in ring 0 with both tables set up and without threads. -/
def system (M : Machine T) : System (State T) (Label T) where
  init s := s.core.cs = 8 ∧ s.cur = none ∧ (∀ t, s.status t = .absent) ∧ (∀ t, s.entry t = .outside) ∧
    ∃ m, s.core.cpu.mem = Idt.image (Idt.new M.handlers) M.idt (Gdt.booted M.gdt M.tss m)
  step := Step M

/-- The context that an entry brings back. -/
def Entry.Saves (e : Entry) (k : UserContext) : Prop := e = .syscall k ∨ e = .interrupt k

structure Inv (M : Machine T) (s : State T) : Prop where
  threads : Switch.Inv M.toLayout s.threads
  installed : M.Installed s.core.cpu.mem
  mode : s.core.cs = 8 ∨ (s.core.cs = 27 ∧ s.core.ss = 35 ∧ ∃ t, s.cur = some t ∧ s.entry t = .outside)
  words : ∀ t, s.core.cpu.mem.Words (s.floor M t) (s.entry t).words
  below : ∀ t k, (s.status t).saved M.toLayout t = some k → (s.entry t).words ≠ [] →
    (k.regs .rsp).toNat ≤ s.floor M t
  begun : ∀ t, s.status t = .absent ∨ s.status t = .fresh → s.entry t = .outside
  rsp0 : ∀ t, s.cur = some t → s.core.cs = 27 ∨ s.entry t ≠ .outside →
    s.core.cpu.mem.load (M.tss + 4).toNat 8 = M.getTopOfStack t
  context : ∀ t k, (s.entry t).Saves k → k.cs = 27 ∧ k.ss = 35

section
variable {M : Machine T} {s s' : State T} {l : Label T} {t : T}

omit [DecidableEq T] in
theorem Entry.length_words (e : Entry) : e.words.length ≤ 19 := by
  cases e with
  | outside => exact Nat.zero_le _
  | syscall k => exact Nat.le_of_eq rfl
  | interrupt k => exact show 5 ≤ 19 by decide

omit [DecidableEq T] in
/-- The frame of an entry lies in the kernel stack of its thread. -/
theorem owns_frame {a : Nat} (h : s.floor M t ≤ a ∧ a < M.base t) : M.Owns t a := by
  have hbase := M.base_le t
  have hlen := (s.entry t).length_words
  unfold State.floor at h
  exact .inl ⟨by omega,by omega⟩

omit [DecidableEq T] in
private theorem frame_end : s.floor M t + 8 * (s.entry t).words.length = M.base t := by
  have hbase := M.base_le t
  have hlen := (s.entry t).length_words
  unfold State.floor
  omega

omit [DecidableEq T] in
private theorem words_congr (hi : Inv M s) {m : Bytes}
    (hm : (s.entry t).words ≠ [] → ∀ a, s.floor M t ≤ a → a < M.base t → m a = s.core.cpu.mem a) :
    m.Words (s.floor M t) (s.entry t).words := by
  by_cases h : (s.entry t).words = []
  · rw [h]
    trivial
  · apply (hi.words t).congr
    intro a h1 h2
    rw [frame_end] at h2
    exact hm h a h1 h2

omit [DecidableEq T] in
/-- A thread whose entry is open has been started. -/
private theorem alive_of_words (hi : Inv M s) (h : (s.entry t).words ≠ []) : s.Alive t := by
  intro habs
  have hout := hi.begun t (.inl habs)
  rw [hout] at h
  exact h rfl

omit [DecidableEq T] in
private theorem cpl_zero (hi : Inv M s) (h : s.core.cpl = 0) : s.core.cs = 8 := by
  rcases hi.mode with hcs | ⟨hcs,-⟩
  · exact hcs
  · rw [Core.cpl,hcs] at h
    exact absurd h (by decide)

omit [DecidableEq T] in
theorem cpl_three (hi : Inv M s) (h : s.core.cpl = 3) :
    s.core.cs = 27 ∧ s.core.ss = 35 ∧ ∃ t, s.cur = some t ∧ s.entry t = .outside := by
  rcases hi.mode with hcs | hmode
  · rw [Core.cpl,hcs] at h
    exact absurd h (by decide)
  · exact hmode

private theorem floor_setEntry (c : Core) (t t' : T) (e : Entry) :
    State.floor M { s with core := c, entry := setEntry s t e } t' =
      if t' = t then M.base t - 8 * e.words.length else s.floor M t' := by
  by_cases h : t' = t
  · subst h
    simp only [State.floor, setEntry, Function.update_self, if_true]
  · simp only [State.floor, setEntry, Function.update_of_ne h, if_neg h]

/-- A step of the running thread that writes to its own kernel stack and to `rsp0` only. -/
private theorem inv_own (hi : Inv M s) (hcur : s.cur = some t) {c' : Core} {e : Entry}
    (hmem : ∀ a, ¬ (M.kernelStack t ≤ a ∧ a < M.kernelStack t + 8 * M.length t) → ¬ M.Rsp0 a →
      c'.cpu.mem a = s.core.cpu.mem a)
    (hmode : c'.cs = 8 ∨ (c'.cs = 27 ∧ c'.ss = 35 ∧ e = .outside))
    (hwords : c'.cpu.mem.Words (M.base t - 8 * e.words.length) e.words)
    (hrsp0 : c'.cpu.mem.load (M.tss + 4).toNat 8 = M.getTopOfStack t)
    (hcontext : ∀ k, e.Saves k → k.cs = 27 ∧ k.ss = 35) :
    Inv M { s with core := c', entry := setEntry s t e } := by
  have hrunning : s.status t = .running := (hi.threads.cur t).mpr hcur
  have hothers : ∀ t', t' ≠ t → ∀ a, M.Owns t' a → c'.cpu.mem a = s.core.cpu.mem a := by
    intro t' hne a ha
    exact hmem a (fun h => Switch.Layout.owns_apart hne ha (.inl h)) (Switch.Layout.tss_apart ha)
  have hstep : Switch.Step M.toLayout s.threads .run { s.threads with cpu := c'.cpu } := by
    apply Switch.Step.run
    intro t' _ hne a ha
    exact hothers t' (fun h => hne (h ▸ hcur)) a ha
  refine ⟨Switch.inv_step hi.threads hstep,?_,?_,?_,?_,?_,?_,?_⟩
  · apply hi.installed.congr
    intro a ha
    obtain ⟨hr,hown⟩ := Machine.fixed_apart ha
    exact hmem a (fun h => hown t (.inl h)) hr
  · rcases hmode with h | ⟨h1,h2,h3⟩
    · exact .inl h
    · refine .inr ⟨h1,h2,t,hcur,?_⟩
      simp only [setEntry, Function.update_self, h3]
  · intro t'
    rw [floor_setEntry]
    by_cases h : t' = t
    · subst h
      simp only [setEntry, Function.update_self, if_true]
      exact hwords
    · simp only [setEntry, Function.update_of_ne h, if_neg h]
      apply words_congr hi
      intro hopen a h1 h2
      exact hothers t' h a (owns_frame ⟨h1,h2⟩)
  · intro t' k hk hopen
    have hne : t' ≠ t := by
      rintro rfl
      change (s.status t').saved M.toLayout t' = some k at hk
      rw [hrunning] at hk
      cases hk
    rw [floor_setEntry,if_neg hne]
    simp only [setEntry, Function.update_of_ne hne] at hopen
    exact hi.below t' k hk hopen
  · intro t' h
    have hne : t' ≠ t := by
      rintro rfl
      change s.status t' = _ ∨ s.status t' = _ at h
      rw [hrunning] at h
      rcases h with h | h <;> cases h
    simp only [setEntry, Function.update_of_ne hne]
    exact hi.begun t' h
  · intro t' hcur' _
    obtain rfl : t = t' := Option.some.inj (hcur.symm.trans hcur')
    exact hrsp0
  · intro t' k hk
    by_cases h : t' = t
    · subst h
      simp only [setEntry, Function.update_self] at hk
      exact hcontext k hk
    · simp only [setEntry, Function.update_of_ne h] at hk
      exact hi.context t' k hk

omit [DecidableEq T] in
/-- A step that leaves the entries as they are. -/
private theorem inv_keep (hi : Inv M s) {s' : State T} (hthreads : Switch.Inv M.toLayout s'.threads)
    (hcore : s'.core.cs = s.core.cs ∧ s'.core.ss = s.core.ss) (hcur : s.core.cs = 27 → s'.cur = s.cur)
    (hentry : s'.entry = s.entry)
    (hfixed : ∀ a, M.Fixed a → s'.core.cpu.mem a = s.core.cpu.mem a)
    (hframes : ∀ t, (s.entry t).words ≠ [] → ∀ a, s.floor M t ≤ a → a < M.base t →
      s'.core.cpu.mem a = s.core.cpu.mem a)
    (hbelow : ∀ t k, (s'.status t).saved M.toLayout t = some k → (s.entry t).words ≠ [] →
      (s.status t).saved M.toLayout t = some k ∨ (k.regs .rsp).toNat ≤ s.floor M t)
    (hbegun : ∀ t, s'.status t = .absent ∨ s'.status t = .fresh → s.entry t = .outside)
    (hrsp0 : ∀ t, s'.cur = some t → s.core.cs = 27 ∨ s.entry t ≠ .outside →
      s'.core.cpu.mem.load (M.tss + 4).toNat 8 = M.getTopOfStack t) : Inv M s' := by
  have hfloor : ∀ t, s'.floor M t = s.floor M t := by
    intro t
    rw [State.floor,State.floor,hentry]
  refine ⟨hthreads,hi.installed.congr hfixed,?_,?_,?_,?_,?_,?_⟩
  · rw [hcore.1,hcore.2,hentry]
    rcases hi.mode with h | ⟨h1,h2,h3⟩
    · exact .inl h
    · rw [hcur h1]
      exact .inr ⟨h1,h2,h3⟩
  · intro t
    rw [hfloor,hentry]
    exact words_congr hi (hframes t)
  · intro t k hk hopen
    rw [hentry] at hopen
    rw [hfloor]
    rcases hbelow t k hk hopen with h | h
    · exact hi.below t k h hopen
    · exact h
  · rw [hentry]
    exact hbegun
  · rw [hcore.1,hentry]
    exact hrsp0
  · rw [hentry]
    exact hi.context

private theorem inv_kernel (hi : Inv M s) {cpu : Cpu}
    (hothers : ∀ t, s.Alive t → s.cur ≠ some t → ∀ a, M.Owns t a → cpu.mem a = s.core.cpu.mem a)
    (hfixed : ∀ a, M.Fixed a ∨ M.Rsp0 a → cpu.mem a = s.core.cpu.mem a)
    (hframe : ∀ t, s.cur = some t → ∀ a, s.floor M t ≤ a → a < M.base t → cpu.mem a = s.core.cpu.mem a) :
    Inv M (s.withCpu cpu) := by
  have hstep : Switch.Step M.toLayout s.threads .run { s.threads with cpu := cpu } := .run hothers
  refine inv_keep hi (Switch.inv_step hi.threads hstep) ⟨rfl,rfl⟩ (fun _ => rfl) rfl (fun a ha => hfixed a (.inl ha))
    ?_ (fun t k hk _ => .inl hk) hi.begun ?_
  · intro t hopen a h1 h2
    by_cases hcur : s.cur = some t
    · exact hframe t hcur a h1 h2
    · exact hothers t (alive_of_words hi hopen) hcur a (owns_frame ⟨h1,h2⟩)
  · intro t hcur h
    rw [← hi.rsp0 t hcur h]
    exact Bytes.load_congr fun a h1 h2 => hfixed a (.inr ⟨h1,h2⟩)

private theorem inv_user (hi : Inv M s) {cpu : Cpu}
    (howned : ∀ t, s.Alive t → ∀ a, M.Owns t a → cpu.mem a = s.core.cpu.mem a)
    (hfixed : ∀ a, M.Fixed a ∨ M.Rsp0 a → cpu.mem a = s.core.cpu.mem a) : Inv M (s.withCpu cpu) := by
  have hstep : Switch.Step M.toLayout s.threads .run { s.threads with cpu := cpu } :=
    .run fun t ht _ => howned t ht
  refine inv_keep hi (Switch.inv_step hi.threads hstep) ⟨rfl,rfl⟩ (fun _ => rfl) rfl (fun a ha => hfixed a (.inl ha))
    ?_ (fun t k hk _ => .inl hk) hi.begun ?_
  · intro t hopen a h1 h2
    exact howned t (alive_of_words hi hopen) a (owns_frame ⟨h1,h2⟩)
  · intro t hcur h
    rw [← hi.rsp0 t hcur h]
    exact Bytes.load_congr fun a h1 h2 => hfixed a (.inr ⟨h1,h2⟩)

private theorem inv_spawn (hi : Inv M s) (h : s.status t = .absent) (hcpl : s.core.cpl = 0) :
    Inv M { s.withCpu { s.core.cpu with mem := newKernelThread M.toLayout t s.core.cpu.mem } with
      status := setStatus s.threads t .fresh } := by
  have hout := hi.begun t (.inl h)
  have hstep : Switch.Step M.toLayout s.threads (.spawn t) _ := .spawn h
  have hkeep : ∀ a, ¬ M.Owns t a → newKernelThread M.toLayout t s.core.cpu.mem a = s.core.cpu.mem a :=
    fun a ha => newKernelThread_frame _ ha
  have hcs := cpl_zero hi hcpl
  refine inv_keep hi (Switch.inv_step hi.threads hstep) ⟨rfl,rfl⟩ (fun _ => rfl) rfl ?_ ?_ ?_ ?_ ?_
  · intro a ha
    exact hkeep a ((Machine.fixed_apart ha).2 t)
  · intro t' hopen a h1 h2
    have hne : t' ≠ t := by
      rintro rfl
      rw [hout] at hopen
      exact hopen rfl
    exact hkeep a (Switch.Layout.owns_apart hne (owns_frame ⟨h1,h2⟩))
  · intro t' k hk hopen
    have hne : t' ≠ t := by
      rintro rfl
      rw [hout] at hopen
      exact hopen rfl
    simp only [setStatus, Function.update_of_ne hne] at hk
    exact .inl hk
  · intro t' h'
    by_cases hne : t' = t
    · rw [hne,hout]
    · simp only [setStatus, Function.update_of_ne hne] at h'
      exact hi.begun t' h'
  · intro t' hcur h'
    rw [← hi.rsp0 t' hcur h']
    apply Bytes.load_congr
    intro a h1 h2
    apply hkeep
    intro hown
    exact Switch.Layout.tss_apart hown ⟨h1,h2⟩

omit [DecidableEq T] in
private theorem owns_below {m : Bytes} {n : T} {k : Context} (hk : Holds M.toLayout n m k) {a : Nat}
    (h : M.kernelStack n ≤ a ∧ a < m.load (M.stackPtr n).toNat 8) : M.Owns n a := by
  have hrsp := hk.rsp
  have hhigh := hk.high
  exact .inl ⟨by omega,by omega⟩

private theorem inv_start (hi : Inv M s) {n : T} {back : BitVec 64} {unlockScheduler : Cpu → Cpu}
    (hcpl : s.core.cpl = 0) (hcur : s.cur = none) (hn : s.status n = .fresh)
    (hrdi : (s.core.cpu.regs .rdi).toNat = s.core.cpu.mem.load (M.stackPtr n).toNat 8)
    (hu : Unlocks M.toLayout s.Alive n unlockScheduler) (hq : Quiet M.Fixed unlockScheduler) :
    Inv M { s.withCpu (s.core.cpu.exec (threadStart back unlockScheduler)) with
      cur := some n, status := setStatus s.threads n .running } := by
  have hn' : s.threads.status n = .fresh := hn
  have hk := hi.threads.saved n (initial M.toLayout n) (by rw [hn']; rfl)
  have hout := hi.begun n (.inr hn)
  have halive : s.Alive n := by
    intro habs
    rw [hn'] at habs
    cases habs
  have hres := start_spec hu halive hk hrdi back
  have hstep : Switch.Step M.toLayout s.threads (.start n) _ :=
    @Switch.Step.start _ _ _ _ _ back _ hcur hn hrdi hu
  have hcs := cpl_zero hi hcpl
  refine inv_keep hi (Switch.inv_step hi.threads hstep) ⟨rfl,rfl⟩ ?_ rfl ?_ ?_ ?_ ?_ ?_
  · intro h
    rw [hcs] at h
    exact absurd h (by decide)
  · intro a ha
    exact start_quiet hq hk hrdi back ha fun hw => (Machine.fixed_apart ha).2 n (owns_below hk hw)
  · intro t hopen a h1 h2
    have hne : t ≠ n := by
      rintro rfl
      rw [hout] at hopen
      exact hopen rfl
    exact hres.others t (alive_of_words hi hopen) hne a (owns_frame ⟨h1,h2⟩)
  · intro t k hk' hopen
    have hne : t ≠ n := by
      rintro rfl
      rw [hout] at hopen
      exact hopen rfl
    simp only [setStatus, Function.update_of_ne hne] at hk'
    exact .inl hk'
  · intro t h'
    by_cases hne : t = n
    · rw [hne,hout]
    · simp only [setStatus, Function.update_of_ne hne] at h'
      exact hi.begun t h'
  · intro t hcur' h'
    obtain rfl : n = t := Option.some.inj hcur'
    rw [hcs,hout] at h'
    rcases h' with h' | h'
    · exact absurd h' (by decide)
    · exact absurd rfl h'

private theorem inv_switch (hi : Inv M s) {c n : T} {back back' back'' : BitVec 64} {unlockScheduler : Cpu → Cpu}
    (hcpl : s.core.cpl = 0) (hcur : s.cur = some c) (hne : n ≠ c) (hn : s.Alive n)
    (hcall : CallsSwitch M.toLayout c n s.core.cpu)
    (hbelow : (s.entry c).words ≠ [] → (s.core.cpu.regs .rsp).toNat ≤ s.floor M c)
    (hu : Unlocks M.toLayout s.Alive n unlockScheduler)
    (hq : Quiet (fun a => M.Fixed a ∨ M.Rsp0 a) unlockScheduler) :
    Inv M { s.withCpu ((s.core.cpu.push back).exec (threadSwitch M.tss back' back'' unlockScheduler)) with
      cur := some n
      status := Function.update
        (setStatus s.threads c (.parked ⟨s.core.cpu.regs,s.core.cpu.rflags,back⟩)) n .running } := by
  have hc : s.status c = .running := (hi.threads.cur c).mpr hcur
  have hnr : s.threads.status n ≠ .running := by
    intro hr
    have h := (hi.threads.cur n).mp hr
    exact hne (Option.some.inj (h.symm.trans hcur))
  obtain ⟨k,hsaved⟩ := saved_of_alive hn hnr
  have hk := hi.threads.saved n k hsaved
  have hstep : Switch.Step M.toLayout s.threads (.switch n back) _ :=
    @Switch.Step.switch _ _ _ _ _ _ back back' back'' _ hcur hne hn hcall hu
  have hcs := cpl_zero hi hcpl
  refine inv_keep hi (Switch.inv_step hi.threads hstep) ⟨rfl,rfl⟩ ?_ rfl ?_ ?_ ?_ ?_ ?_
  · intro h
    rw [hcs] at h
    exact absurd h (by decide)
  · intro a ha
    obtain ⟨hr,hown⟩ := Machine.fixed_apart ha
    refine switch_quiet hq hk hcall back back' back'' (.inl ha) ?_
    rintro (h | h | h | h)
    · exact hown c (.inl ⟨h.1,h.2.trans_le hcall.high⟩)
    · exact hown n (owns_below hk h)
    · exact hown c (.inr h)
    · exact hr h
  · intro t hopen a h1 h2
    have howns : M.Owns t a := owns_frame ⟨h1,h2⟩
    refine switch_owned hu hk hcall back back' back'' (alive_of_words hi hopen) howns ?_
    rintro (h | h | h | h)
    · by_cases hct : t = c
      · subst hct
        exact absurd (h.2.trans_le (hbelow hopen)) (Nat.not_lt_of_le h1)
      · exact Switch.Layout.owns_apart hct howns (.inl ⟨h.1,h.2.trans_le hcall.high⟩)
    · by_cases hnt : t = n
      · subst hnt
        have hb := hi.below t k hsaved hopen
        have hrsp := hk.rsp
        omega
      · exact Switch.Layout.owns_apart hnt howns (owns_below hk h)
    · have hbase := M.base_le t
      have hlt : a < M.kernelStack t + 8 * M.length t := by omega
      have hge : M.kernelStack t ≤ a := by
        have hlen := (s.entry t).length_words
        unfold State.floor at h1
        omega
      rcases M.field_stack_apart c t with hf | hf <;> omega
    · exact Switch.Layout.tss_apart howns h
  · intro t k' hk' hopen
    by_cases htn : t = n
    · subst htn
      simp only [Function.update_self] at hk'
      cases hk'
    · simp only [Function.update_of_ne htn] at hk'
      by_cases htc : t = c
      · subst htc
        simp only [setStatus, Function.update_self, Status.saved, Option.some.injEq] at hk'
        subst hk'
        exact .inr (hbelow hopen)
      · simp only [setStatus, Function.update_of_ne htc] at hk'
        exact .inl hk'
  · intro t h'
    by_cases htn : t = n
    · subst htn
      simp only [Function.update_self] at h'
      rcases h' with h' | h' <;> cases h'
    · simp only [Function.update_of_ne htn] at h'
      by_cases htc : t = c
      · subst htc
        simp only [setStatus, Function.update_self] at h'
        rcases h' with h' | h' <;> cases h'
      · simp only [setStatus, Function.update_of_ne htc] at h'
        exact hi.begun t h'
  · intro t hcur' _
    obtain rfl : n = t := Option.some.inj hcur'
    exact switch_rsp0 (fun s a ha => hq s a (.inr ha)) hk hcall back back' back''

omit [DecidableEq T] in
/-- The way in from ring 3. -/
private theorem entered (hi : Inv M s) (hcpl : s.core.cpl = 3) (hcur : s.cur = some t) {software : Bool} {v : Nat}
    (hv : v < Idt.idtSize) (hsoft : software = true → v = 0x80) {back : BitVec 64} {c : Core}
    (h : s.core.deliver M.tables software v back = some c) :
    s.core.Entered (Idt.gateOf M.handlers v) (M.base t) back c := by
  have hcs := (cpl_three hi hcpl).1
  obtain ⟨c',hc',hent⟩ := (deliver_user hi.installed hcs (hi.rsp0 t hcur (.inl hcs)) hv back).2 software hsoft
  rw [h] at hc'
  cases hc'
  exact hent

omit [DecidableEq T] in
private theorem context_of (hi : Inv M s) (hcpl : s.core.cpl = 3) (back : BitVec 64) :
    (UserContext.of s.core back).cs = 27 ∧ (UserContext.of s.core back).ss = 35 :=
  ⟨(cpl_three hi hcpl).1,(cpl_three hi hcpl).2.1⟩

omit [DecidableEq T] in
/-- The dispatcher on the frame of the running thread. -/
theorem called (hi : Inv M s) (hcpl : s.core.cpl = 3) (hcur : s.cur = some t) {back : BitVec 64} {c : Core}
    (h : s.core.deliver M.tables true 0x80 back = some c) (back' : BitVec 64) :
    (8 ≤ (s.core.cpu.regs .rax).toNat → dispatchSyscall M.functions back' c = none) ∧
      ((s.core.cpu.regs .rax).toNat < 8 → ∃ c', dispatchSyscall M.functions back' c = some c' ∧
        Called M.functions c (.of s.core back) (M.base t) c') := by
  have hent := entered hi hcpl hcur (by decide) (fun _ => rfl) h
  have hbase := M.base_le t
  exact dispatchSyscall_spec (k := .of s.core back) hent.rsp (by omega) hent.regs hent.words

private theorem inv_syscall (hi : Inv M s) (hcpl : s.core.cpl = 3) (hcur : s.cur = some t) {back back' : BitVec 64}
    {c c' : Core} (hint : s.core.deliver M.tables true 0x80 back = some c)
    (h : dispatchSyscall M.functions back' c = some c') :
    Inv M { s with core := c', entry := setEntry s t (.syscall (.of s.core back)) } := by
  have hent := entered hi hcpl hcur (by decide) (fun _ => rfl) hint
  have hcall := called hi hcpl hcur hint back'
  have hlt : (s.core.cpu.regs .rax).toNat < 8 := by
    by_contra hge
    rw [hcall.1 (Nat.le_of_not_lt hge)] at h
    cases h
  obtain ⟨c'',hc'',hcalled⟩ := hcall.2 hlt
  rw [h] at hc''
  cases hc''
  have hrsp := hcalled.rsp
  have hersp := hent.rsp
  have hbase := M.base_le t
  have hmem : ∀ a, ¬ (M.kernelStack t ≤ a ∧ a < M.kernelStack t + 8 * M.length t) →
      c'.cpu.mem a = s.core.cpu.mem a := by
    intro a ha
    rw [hcalled.mem a (by omega),hent.mem a (by omega)]
  apply inv_own hi hcur (fun a ha _ => hmem a ha)
  · left
    rw [hcalled.cs,hent.cs,(Idt.gateOf_spec _ _).1]
    rfl
  · exact hcalled.words
  · rw [← hi.rsp0 t hcur (.inl (cpl_three hi hcpl).1)]
    exact Bytes.load_congr fun a h1 h2 => hmem a fun hown => Switch.Layout.tss_apart (.inl hown) ⟨h1,h2⟩
  · rintro k (hk | hk) <;> cases hk
    exact context_of hi hcpl back

private theorem inv_interrupt (hi : Inv M s) (hcpl : s.core.cpl = 3) (hcur : s.cur = some t) {v : Nat} {c' : Core}
    (hv : v < Idt.idtSize) (h : s.core.deliver M.tables false v s.core.cpu.rip = some c') :
    Inv M { s with core := c', entry := setEntry s t (.interrupt (.of s.core s.core.cpu.rip)) } := by
  have hent := entered hi hcpl hcur hv (show false = true → v = 0x80 from nofun) h
  have hrsp := hent.rsp
  have hbase := M.base_le t
  have hmem : ∀ a, ¬ (M.kernelStack t ≤ a ∧ a < M.kernelStack t + 8 * M.length t) →
      c'.cpu.mem a = s.core.cpu.mem a := by
    intro a ha
    rw [hent.mem a (by omega)]
  apply inv_own hi hcur (fun a ha _ => hmem a ha)
  · left
    rw [hent.cs,(Idt.gateOf_spec _ _).1]
    rfl
  · have hw := hent.words
    rwa [show (c'.cpu.regs .rsp).toNat = M.base t - 8 * 5 by omega] at hw
  · rw [← hi.rsp0 t hcur (.inl (cpl_three hi hcpl).1)]
    exact Bytes.load_congr fun a h1 h2 => hmem a fun hown => Switch.Layout.tss_apart (.inl hown) ⟨h1,h2⟩
  · rintro k (hk | hk) <;> cases hk
    exact context_of hi hcpl _

/-- `c'` is in the context `k`, with the result of the handler in `rax`. -/
structure Restored (c : Core) (k : UserContext) (c' : Core) : Prop where
  regs : ∀ r, r ≠ .rax → c'.cpu.regs r = k.regs r
  rax : c'.cpu.regs .rax = c.cpu.regs .rax
  rflags : c'.cpu.rflags = k.rflags
  rip : c'.cpu.rip = k.rip
  cs : c'.cs = k.cs
  ss : c'.ss = k.ss
  mem : c'.cpu.mem = c.cpu.mem

omit [DecidableEq T] in
/-- The way back to ring 3 never fails, and restores what the entry has saved. -/
theorem restored_sysret (hi : Inv M s) (hcpl : s.core.cpl = 0) {k : UserContext} (hentry : s.entry t = .syscall k)
    (hrsp : (s.core.cpu.regs .rsp).toNat = s.floor M t) :
    ∃ c', returnFromSyscall M.tables s.core = some c' ∧ Restored s.core k c' := by
  obtain ⟨hcs,hss⟩ := hi.context t k (.inl hentry)
  have hwords := hi.words t
  rw [← hrsp,hentry] at hwords
  have hbase := M.base_le t
  have hbound := M.bounded t
  have hend := @frame_end T M s t
  rw [hentry] at hend
  have hlen : (Entry.syscall k).words.length = 19 := rfl
  have hfit : s.floor M t + 8 * 19 < 2^64 := by omega
  obtain ⟨c',hc',h1,h2,h3,h4,h5,h6,h7⟩ := returnFromSyscall_spec (T := M.tables) hwords
    (by rw [hrsp]; exact hfit) hcpl (by rw [hcs]; decide) (by rw [hss]; decide)
    (by rw [hcs]; exact hi.installed.codeSegment_user) rfl (by decide)
    (by rw [hss]; exact hi.installed.descriptor_user) (by decide) rfl rfl
  exact ⟨c',hc',h1,h2,h3,h4,h5,h6,h7⟩

omit [DecidableEq T] in
theorem restored_iret (hi : Inv M s) (hcpl : s.core.cpl = 0) {k : UserContext} (hentry : s.entry t = .interrupt k)
    (hrsp : (s.core.cpu.regs .rsp).toNat = s.floor M t) (hregs : ∀ r, r ≠ .rsp → s.core.cpu.regs r = k.regs r) :
    ∃ c', s.core.iretq M.tables = some c' ∧ Restored s.core k c' := by
  obtain ⟨hcs,hss⟩ := hi.context t k (.inr hentry)
  have hwords := hi.words t
  rw [← hrsp,hentry] at hwords
  have hcs' : (k.cs.setWidth 64).setWidth 16 = k.cs := by simp
  have hss' : (k.ss.setWidth 64).setWidth 16 = k.ss := by simp
  have hret := Core.iretq_eq (T := M.tables) hwords hcpl (by rw [hcs',hcs]; decide) (by rw [hss',hss]; decide)
    (by rw [hcs',hcs]; exact hi.installed.codeSegment_user) rfl (by decide)
    (by rw [hss',hss]; exact hi.installed.descriptor_user) (by decide) rfl rfl
  rw [hcs',hss'] at hret
  refine ⟨_,hret,?_,?_,rfl,rfl,rfl,rfl,rfl⟩
  · intro r _
    change (s.core.cpu.set .rsp (k.regs .rsp)).regs r = k.regs r
    by_cases hr : r = .rsp
    · subst hr
      exact Cpu.set_self _ _
    · rw [Cpu.set_ne _ hr,hregs r hr]
  · exact Cpu.set_ne s.core.cpu (show Reg.rax ≠ .rsp by decide) (k.regs .rsp)

private theorem inv_return (hi : Inv M s) (hcur : s.cur = some t) {k : UserContext} (hk : (s.entry t).Saves k)
    {c' : Core} (h : Restored s.core k c') : Inv M { s with core := c', entry := setEntry s t .outside } := by
  obtain ⟨hcs,hss⟩ := hi.context t k hk
  have hne : s.entry t ≠ .outside := by
    rcases hk with hk | hk <;> rw [hk] <;> nofun
  apply inv_own hi hcur
  · intro a _ _
    rw [h.mem]
  · exact .inr ⟨h.cs.trans hcs,h.ss.trans hss,rfl⟩
  · trivial
  · rw [h.mem]
    exact hi.rsp0 t hcur (.inr hne)
  · rintro k' (hk' | hk') <;> cases hk'

private theorem inv_kickoff (hi : Inv M s) (hcpl : s.core.cpl = 0) (hcur : s.cur = some t)
    (hentry : s.entry t = .outside) {c' : Core} (h : kickoffKernelThread M t s.core = some c') :
    Inv M { s with core := c' } := by
  have hsame : setEntry s t .outside = s.entry := by
    rw [setEntry,← hentry,Function.update_eq_self]
  have hbound := M.bounded t
  have hlen : 65536 ≤ M.length t := M.capacity t
  have htop : (BitVec.ofNat 64 (M.getTopOfStack t)).toNat = M.getTopOfStack t := by
    rw [BitVec.toNat_ofNat,Nat.mod_eq_of_lt (by rw [Switch.Layout.getTopOfStack]; omega)]
  have hfit : M.getTopOfStack t < 256^8 := by
    rw [Switch.Layout.getTopOfStack]
    omega
  have hinv := fun hmem hmode hrsp0 => @inv_own _ _ _ _ _ hi hcur c' .outside hmem hmode trivial hrsp0
    (by rintro k (hk | hk) <;> cases hk)
  rw [hsame] at hinv
  cases hkind : M.isKernelThread t with
  | true =>
    rw [kickoffKernelThread,hkind] at h
    simp only [if_true, Option.some.injEq] at h
    have hmem : c'.cpu.mem = s.core.cpu.mem.store (M.tss + 4).toNat 8 (M.getTopOfStack t) := by
      rw [← htop,← h]
      rfl
    apply hinv
    · intro a _ ha
      rw [hmem,Bytes.store_of_not_mem _ _ ha]
    · left
      rw [← cpl_zero hi hcpl,← h]
    · rw [hmem,Bytes.load_store_of_lt _ hfit]
  | false =>
    obtain ⟨c'',hc'',hstart,hmem⟩ := kickoff_user hi.installed hcpl hkind
    rw [h] at hc''
    cases hc''
    rw [htop] at hmem
    apply hinv
    · intro a h1 h2
      rw [hmem,userFrame_frame h1,Bytes.store_of_not_mem _ _ h2]
    · exact .inr ⟨hstart.cs,hstart.ss,rfl⟩
    · rw [hmem]
      refine Eq.trans ?_ (@Bytes.load_store_of_lt s.core.cpu.mem (M.tss + 4).toNat 8 _ hfit)
      apply Bytes.load_congr
      intro a h1 h2
      apply userFrame_frame
      intro hown
      exact Switch.Layout.tss_apart (L := M.toLayout) (.inl hown) ⟨h1,h2⟩

theorem inv_step (hi : Inv M s) (hs : Step M s l s') : Inv M s' := by
  cases hs with
  | spawn h hcpl => exact inv_spawn hi h hcpl
  | kernel hcpl hothers hfixed hframe => exact inv_kernel hi hothers hfixed hframe
  | user hcpl howned hfixed => exact inv_user hi howned hfixed
  | start hcpl hcur hn hrdi hu hq => exact inv_start hi hcpl hcur hn hrdi hu hq
  | switch hcpl hcur hne hn hcall hbelow hu hq => exact inv_switch hi hcpl hcur hne hn hcall hbelow hu hq
  | kickoff hcpl hcur hentry h => exact inv_kickoff hi hcpl hcur hentry h
  | syscall hcpl hcur hint h => exact inv_syscall hi hcpl hcur hint h
  | sysret hcpl hcur hentry hrsp h =>
    obtain ⟨c',hc',hres⟩ := restored_sysret hi hcpl hentry hrsp
    rw [h] at hc'
    cases hc'
    exact inv_return hi hcur (.inl hentry) hres
  | interrupt hcpl hcur hv h => exact inv_interrupt hi hcpl hcur hv.1 h
  | iret hcpl hcur hentry hrsp hregs h =>
    obtain ⟨c',hc',hres⟩ := restored_iret hi hcpl hentry hrsp hregs
    rw [h] at hc'
    cases hc'
    exact inv_return hi hcur (.inr hentry) hres

theorem inv_reachable (h : (system M).Reachable s) : Inv M s := by
  apply h.invariant
  · rintro s ⟨hcs,hcur,hstatus,hentry,m,hmem⟩
    refine ⟨⟨?_,?_⟩,?_,.inl hcs,?_,?_,fun t _ => hentry t,?_,?_⟩
    · intro t k hk
      change (s.status t).saved M.toLayout t = some k at hk
      rw [hstatus] at hk
      cases hk
    · intro t
      change s.status t = .running ↔ s.cur = some t
      rw [hstatus,hcur]
      exact ⟨nofun,nofun⟩
    · rw [hmem]
      exact M.installed_boot m
    · intro t
      rw [hentry]
      trivial
    · intro t k hk
      rw [hstatus] at hk
      cases hk
    · intro t hc
      rw [hcur] at hc
      cases hc
    · rintro t k (hk | hk) <;> rw [hentry] at hk <;> cases hk
  · intro s l s' hi hs
    exact inv_step hi hs

end

end HeineOS.Usermode
