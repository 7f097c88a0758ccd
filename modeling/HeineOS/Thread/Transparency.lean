import HeineOS.Thread.Switch
import HeineOS.Lib.System

/-! Any sequence of switches among threads with kernel stacks of their own: what a thread finds when it is
resumed is what it left. -/
namespace HeineOS.Switch
open Lib

inductive Status where
  | absent
  | fresh
  | running
  | parked (k : Context)

/-- The processor, the thread it runs, if any, and where the other threads stand. -/
structure State (T : Type) where
  cpu : Cpu
  cur : Option T
  status : T → Status

/-- `switch n back`: the running thread calls `thread_switch`, with `back` as return address. -/
inductive Label (T : Type) where
  | spawn (t : T)
  | run
  | start (n : T)
  | switch (n : T) (back : BitVec 64)

def Label.Resumes {T : Type} : Label T → T → Prop
  | .start n,t => n = t
  | .switch n _,t => n = t
  | _,_ => False

variable {T : Type}

def State.Alive (s : State T) (t : T) : Prop := s.status t ≠ .absent

/-- Arguments of `thread_switch` as `Thread::switch` passes them, on the caller's own stack with room for the
frame and a call. -/
structure CallsSwitch (L : Layout T) (c n : T) (s : Cpu) : Prop where
  rdi : s.regs .rdi = L.stackPtr c
  rsi : (s.regs .rsi).toNat = s.mem.load (L.stackPtr n).toNat 8
  rdx : (s.regs .rdx).toNat = L.getTopOfStack n
  low : L.kernelStack c + 8 * 18 ≤ (s.regs .rsp).toNat
  high : (s.regs .rsp).toNat ≤ L.kernelStack c + 8 * L.length c

/-- The context that a thread has to be resumed in. -/
def Status.saved (L : Layout T) (t : T) : Status → Option Context
  | .fresh => some (initial L t)
  | .parked k => some k
  | _ => none

structure Inv (L : Layout T) (s : State T) : Prop where
  saved : ∀ t k, (s.status t).saved L t = some k → Holds L t s.cpu.mem k
  cur : ∀ t, s.status t = .running ↔ s.cur = some t

variable {L : Layout T} {s s' : State T} {l : Label T}

theorem Holds.of_owns {t : T} {m m' : Bytes} {k : Context} (h : Holds L t m k)
    (hm : ∀ a, L.Owns t a → m' a = m a) : Holds L t m' k := by
  have hlow := h.low
  apply h.congr
  · intro a h1 h2
    exact hm a (.inr ⟨h1,h2⟩)
  · intro a h1 h2
    exact hm a (.inl ⟨by omega,h2⟩)

private theorem alive_of_saved {t : T} {k : Context} (h : (s.status t).saved L t = some k) : s.Alive t := by
  intro habs
  rw [habs] at h
  cases h

private theorem not_running_of_saved {t : T} {k : Context} (h : (s.status t).saved L t = some k) :
    s.status t ≠ .running := by
  intro hrun
  rw [hrun] at h
  cases h

theorem saved_of_alive {t : T} (h : s.Alive t) (hr : s.status t ≠ .running) :
    ∃ k, (s.status t).saved L t = some k := by
  unfold State.Alive at h
  cases hs : s.status t with
  | absent => exact absurd hs h
  | fresh => exact ⟨_,rfl⟩
  | running => exact absurd hs hr
  | parked k => exact ⟨k,rfl⟩

private theorem initial_rsp (L : Layout T) (t : T) : ((initial L t).regs .rsp).toNat = L.getTopOfStack t := by
  have hbound := L.bounded t
  have hlen : 65536 ≤ L.length t := L.capacity t
  change (BitVec.ofNat 64 (L.getTopOfStack t)).toNat = _
  rw [BitVec.toNat_ofNat]
  apply Nat.mod_eq_of_lt
  rw [Layout.getTopOfStack]
  omega

/-- The processor about to call `Thread::switch` from `c` to `n`. -/
def calling (L : Layout T) (c n : T) (s : Cpu) : Cpu :=
  { s with regs := fun
      | .rdi => L.stackPtr c
      | .rsi => BitVec.ofNat 64 (s.mem.load (L.stackPtr n).toNat 8)
      | .rdx => BitVec.ofNat 64 (L.getTopOfStack n)
      | .rsp => BitVec.ofNat 64 (L.kernelStack c + 8 * 18)
      | _ => 0 }

private theorem calling_rsi (c n : T) (cpu : Cpu) :
    ((calling L c n cpu).regs .rsi).toNat = cpu.mem.load (L.stackPtr n).toNat 8 := by
  change (BitVec.ofNat 64 _).toNat = _
  rw [BitVec.toNat_ofNat]
  exact Nat.mod_eq_of_lt (Bytes.load_lt _ _ _)

private theorem callsSwitch_calling (c n : T) (cpu : Cpu) : CallsSwitch L c n (calling L c n cpu) := by
  have hbound := L.bounded c
  have hlen : 65536 ≤ L.length c := L.capacity c
  have hrsp : ((calling L c n cpu).regs .rsp).toNat = L.kernelStack c + 8 * 18 := by
    change (BitVec.ofNat 64 _).toNat = _
    rw [BitVec.toNat_ofNat,Nat.mod_eq_of_lt (by omega)]
  exact ⟨rfl,calling_rsi c n cpu,initial_rsp L n,hrsp.ge,hrsp.trans_le (by omega)⟩

private theorem unlocks_id (alive : T → Prop) (n : T) : Unlocks L alive n id :=
  fun _ => ⟨rfl,fun _ _ _ _ _ => rfl⟩

variable [DecidableEq T]

def setStatus (s : State T) (t : T) (status : Status) : T → Status := Function.update s.status t status

/-- `run` is any code of the running thread, which does not write to what the other threads own. -/
inductive Step (L : Layout T) : State T → Label T → State T → Prop where
  | spawn {s : State T} {t : T} (h : s.status t = .absent) :
      Step L s (.spawn t)
        ⟨{ s.cpu with mem := newKernelThread L t s.cpu.mem },s.cur,setStatus s t .fresh⟩
  | run {s : State T} {cpu : Cpu}
      (h : ∀ t, s.Alive t → s.cur ≠ some t → ∀ a, L.Owns t a → cpu.mem a = s.cpu.mem a) :
      Step L s .run { s with cpu := cpu }
  | start {s : State T} {n : T} {back : BitVec 64} {unlockScheduler : Cpu → Cpu} (hcur : s.cur = none)
      (hn : s.status n = .fresh) (hrdi : (s.cpu.regs .rdi).toNat = s.cpu.mem.load (L.stackPtr n).toNat 8)
      (hu : Unlocks L s.Alive n unlockScheduler) :
      Step L s (.start n) ⟨s.cpu.exec (threadStart back unlockScheduler),some n,setStatus s n .running⟩
  | switch {s : State T} {c n : T} {back back' back'' : BitVec 64} {unlockScheduler : Cpu → Cpu}
      (hcur : s.cur = some c) (hne : n ≠ c) (hn : s.Alive n) (hcall : CallsSwitch L c n s.cpu)
      (hu : Unlocks L s.Alive n unlockScheduler) :
      Step L s (.switch n back)
        ⟨(s.cpu.push back).exec (threadSwitch L.tss back' back'' unlockScheduler),some n,
          Function.update (setStatus s c (.parked ⟨s.cpu.regs,s.cpu.rflags,back⟩)) n .running⟩

/-- No thread exists at first. -/
def system (L : Layout T) : System (State T) (Label T) where
  init s := s.cur = none ∧ ∀ t, s.status t = .absent
  step := Step L

theorem inv_step (hi : Inv L s) (hs : Step L s l s') : Inv L s' := by
  cases hs with
  | @spawn t h =>
    refine ⟨?_,?_⟩
    · intro t' k hk
      by_cases he : t' = t
      · subst he
        simp only [setStatus, Function.update_self, Status.saved, Option.some.injEq] at hk
        subst hk
        exact holds_newKernelThread _
      · simp only [setStatus, Function.update_of_ne he] at hk
        apply (hi.saved t' k hk).of_owns
        intro a ha
        exact newKernelThread_frame _ (Layout.owns_apart he ha)
    · intro t'
      by_cases he : t' = t
      · subst he
        have hcur := hi.cur t'
        rw [h] at hcur
        simp only [setStatus, Function.update_self]
        exact ⟨nofun,fun hc => absurd (hcur.mpr hc) nofun⟩
      · simp only [setStatus, Function.update_of_ne he]
        exact hi.cur t'
  | run h =>
    refine ⟨?_,hi.cur⟩
    intro t k hk
    apply (hi.saved t k hk).of_owns
    apply h t (alive_of_saved hk)
    intro hc
    exact not_running_of_saved hk ((hi.cur t).mpr hc)
  | @start n back unlockScheduler hcur hn hrdi hu =>
    have hk := hi.saved n (initial L n) (by rw [hn]; rfl)
    have hres := start_spec hu (show s.Alive n by rw [State.Alive,hn]; nofun) hk hrdi back
    refine ⟨?_,?_⟩
    · intro t k hk
      by_cases he : t = n
      · subst he
        simp only [setStatus, Function.update_self, Status.saved] at hk
        cases hk
      · simp only [setStatus, Function.update_of_ne he] at hk
        exact (hi.saved t k hk).of_owns (hres.others t (alive_of_saved hk) he)
    · intro t
      by_cases he : t = n
      · subst he
        simp only [setStatus, Function.update_self]
      · simp only [setStatus, Function.update_of_ne he, Option.some.injEq]
        have h := hi.cur t
        rw [hcur] at h
        exact ⟨fun hr => absurd (h.mp hr) nofun,fun hn' => absurd hn'.symm he⟩
  | @switch c n back back' back'' unlockScheduler hcur hne hn hcall hu =>
    have hc : s.status c = .running := (hi.cur c).mpr hcur
    have hnr : s.status n ≠ .running := by
      intro hr
      have h := (hi.cur n).mp hr
      rw [hcur] at h
      exact hne (Option.some.inj h).symm
    obtain ⟨k,hk⟩ := saved_of_alive hn hnr
    obtain ⟨hres,hsaved⟩ := switch_spec hu hn (show s.Alive c by rw [State.Alive,hc]; nofun) hne
      (hi.saved n k hk) hcall.rdi hcall.rsi hcall.low hcall.high back back' back''
    refine ⟨?_,?_⟩
    · intro t k' hk'
      by_cases htn : t = n
      · subst htn
        simp only [Function.update_self, Status.saved] at hk'
        cases hk'
      · simp only [Function.update_of_ne htn] at hk'
        by_cases htc : t = c
        · subst htc
          simp only [setStatus, Function.update_self, Status.saved, Option.some.injEq] at hk'
          subst hk'
          exact hsaved
        · simp only [setStatus, Function.update_of_ne htc] at hk'
          exact (hi.saved t k' hk').of_owns (hres.others t ⟨alive_of_saved hk',htc⟩ htn)
    · intro t
      by_cases htn : t = n
      · subst htn
        simp only [Function.update_self]
      · simp only [Function.update_of_ne htn, Option.some.injEq]
        by_cases htc : t = c
        · subst htc
          simp only [setStatus, Function.update_self]
          exact ⟨nofun,fun h => absurd h.symm htn⟩
        · simp only [setStatus, Function.update_of_ne htc]
          have h := hi.cur t
          rw [hcur] at h
          exact ⟨fun hr => absurd (Option.some.inj (h.mp hr)).symm htc,fun h => absurd h.symm htn⟩

theorem inv_reachable (h : (system L).Reachable s) : Inv L s := by
  apply h.invariant
  · rintro s ⟨hcur,habs⟩
    refine ⟨?_,?_⟩
    · intro t k hk
      rw [habs] at hk
      cases hk
    · intro t
      rw [habs,hcur]
      exact ⟨nofun,nofun⟩
  · intro s l s' hi hs
    exact inv_step hi hs

/-- A thread that waits stays as it is until a step resumes it. -/
theorem waits_step (hi : Inv L s) (hs : Step L s l s') {t : T} {k : Context}
    (hk : (s.status t).saved L t = some k) (hl : ¬ l.Resumes t) : s'.status t = s.status t := by
  cases hs with
  | @spawn t' h =>
    apply Function.update_of_ne
    rintro rfl
    exact alive_of_saved hk h
  | run h => rfl
  | start hcur hn hrdi hu => exact Function.update_of_ne (fun he => hl he.symm) _ _
  | @switch c n back back' back'' unlockScheduler hcur hne hn hcall hu =>
    have hc : t ≠ c := by
      rintro rfl
      exact not_running_of_saved hk ((hi.cur t).mpr hcur)
    change Function.update (setStatus s c _) n _ t = _
    rw [Function.update_of_ne fun he => hl he.symm,setStatus,Function.update_of_ne hc]

theorem waits_run {ls : List (Label T)} (hi : Inv L s) (hr : (system L).Run s ls s') {t : T} {k : Context}
    (hk : (s.status t).saved L t = some k) (hl : ∀ l ∈ ls, ¬ l.Resumes t) : s'.status t = s.status t := by
  induction hr with
  | nil => rfl
  | cons hs hr ih =>
    have hstay := waits_step hi hs hk (hl _ List.mem_cons_self)
    rw [ih (inv_step hi hs) (hstay ▸ hk) fun l hm => hl l (List.mem_cons_of_mem _ hm),hstay]

/-- The step that resumes a thread ends in the context that the thread waits in. -/
theorem resumes_saved (hi : Inv L s) (hs : Step L s l s') {t : T} {k : Context}
    (hk : (s.status t).saved L t = some k) (hl : l.Resumes t) :
    s'.cpu.regs = k.regs ∧ s'.cpu.rflags = k.rflags ∧ s'.cpu.rip = k.rip := by
  cases hs with
  | spawn h => cases hl
  | run h => cases hl
  | @start n back unlockScheduler hcur hn hrdi hu =>
    obtain rfl : n = t := hl
    have hres := start_spec hu (alive_of_saved hk) (hi.saved n k hk) hrdi back
    exact ⟨hres.regs,hres.rflags,hres.rip⟩
  | @switch c n back back' back'' unlockScheduler hcur hne hn hcall hu =>
    obtain rfl : n = t := hl
    have hc : s.status c = .running := (hi.cur c).mpr hcur
    have hres := (switch_spec hu hn (show s.Alive c by rw [State.Alive,hc]; nofun) hne (hi.saved n k hk)
      hcall.rdi hcall.rsi hcall.low hcall.high back back' back'').1
    exact ⟨hres.regs,hres.rflags,hres.rip⟩

private theorem parks (hs : Step L s l s') {n c : T} {back : BitVec 64} (hl : l = .switch n back)
    (hc : s.cur = some c) : s'.status c = .parked ⟨s.cpu.regs,s.cpu.rflags,back⟩ := by
  cases hs with
  | switch hcur hne hn hcall hu =>
    cases hl
    rw [hcur] at hc
    cases hc
    change Function.update (setStatus s c _) n _ c = _
    rw [Function.update_of_ne hne.symm,setStatus,Function.update_self]
  | _ => cases hl

private theorem spawns (hs : Step L s l s') {t : T} (hl : l = .spawn t) : s'.status t = .fresh := by
  cases hs with
  | spawn h =>
    cases hl
    exact Function.update_self _ _ _
  | _ => cases hl

/-- In every run, a thread that called `thread_switch` is resumed with the registers, flags, stack pointer and
return address of the call, and a new thread is first resumed in `kickoff_kernel_thread`, with its own
address in `rdi`, interrupts disabled and an empty stack. -/
theorem switch_transparent (L : Layout T) {s s₁ s₂ s₃ : State T} {ls : List (Label T)} {l : Label T} {t : T}
    (hs : (system L).Reachable s) (hrun : (system L).Run s₁ ls s₂) (hwait : ∀ l ∈ ls, ¬ l.Resumes t)
    (hstep : (system L).step s₂ l s₃) (hl : l.Resumes t) :
    (∀ n back, s.cur = some t → (system L).step s (.switch n back) s₁ →
      s₃.cpu.regs = s.cpu.regs ∧ s₃.cpu.rflags = s.cpu.rflags ∧ s₃.cpu.rip = back) ∧
    ((system L).step s (.spawn t) s₁ →
      s₃.cpu.rip = L.kickoffKernelThread ∧ s₃.cpu.regs .rdi = L.thread t ∧ s₃.cpu.rflags.getLsbD 9 = false ∧
        (s₃.cpu.regs .rsp).toNat = L.getTopOfStack t) := by
  have hi := inv_reachable hs
  constructor
  · intro n back hcur hfirst
    have hi₁ := inv_step hi hfirst
    have hk : (s₁.status t).saved L t = some ⟨s.cpu.regs,s.cpu.rflags,back⟩ := by
      rw [parks hfirst rfl hcur]
      rfl
    have hi₂ := hrun.invariant (fun _ _ _ => inv_step) hi₁
    exact resumes_saved hi₂ hstep (waits_run hi₁ hrun hk hwait ▸ hk) hl
  · intro hfirst
    have hi₁ := inv_step hi hfirst
    have hk : (s₁.status t).saved L t = some (initial L t) := by
      rw [spawns hfirst rfl]
      rfl
    have hi₂ := hrun.invariant (fun _ _ _ => inv_step) hi₁
    obtain ⟨hregs,hflags,hrip⟩ := resumes_saved hi₂ hstep (waits_run hi₁ hrun hk hwait ▸ hk) hl
    refine ⟨hrip,?_,?_,?_⟩
    · rw [hregs]
      rfl
    · rw [hflags]
      change (2 : BitVec 64).getLsbD 9 = false
      decide
    · rw [hregs,initial_rsp]

/-- Two stacks of 512 KiB above the `stack_ptr` fields and the task state segment. -/
def twoThreads : Layout Bool where
  kernelStack t := if t then 0x180000 else 0x100000
  length _ := 65536
  thread t := if t then 0x1fc0 else 0xfc0
  stackPtr t := if t then 0x2000 else 0x1000
  tss := 0x3000
  kickoffKernelThread := 0x8000
  capacity _ := by decide
  bounded := by decide
  stacks_apart := by decide
  fields_apart := by decide
  field_stack_apart := by decide
  tss_stack_apart := by decide
  tss_field_apart := by decide

private theorem spawned {t : T} (h : (system L).Reachable s) (ht : s.status t = .absent) :
    ∃ s', (system L).Reachable s' ∧ s'.cur = s.cur ∧ s'.status = setStatus s t .fresh :=
  ⟨_,h.step (.spawn ht),rfl,rfl⟩

private theorem started {n : T} (c : T) (h : (system L).Reachable s) (hcur : s.cur = none)
    (hn : s.status n = .fresh) :
    ∃ s', (system L).Reachable s' ∧ s'.cur = some n ∧ s'.status = setStatus s n .running := by
  have hrun : (system L).step s .run { s with cpu := (calling L c n s.cpu).step (.mov .rdi .rsi) } :=
    .run fun _ _ _ _ _ => rfl
  exact ⟨_,(h.step hrun).step (@Step.start _ _ _ _ _ 0 _ hcur hn (calling_rsi c n s.cpu) (unlocks_id _ n)),rfl,rfl⟩

/-- Any thread that waits can be switched to. -/
private theorem switched {c n : T} (hcur : s.cur = some c) (hne : n ≠ c) (hn : s.Alive n) (back : BitVec 64) :
    ∃ s₁ s₂, (system L).step s .run s₁ ∧ (system L).step s₁ (.switch n back) s₂ ∧ s₁.cur = some c ∧
      s₂.cur = some n ∧ ∀ t, s.Alive t → s₂.Alive t := by
  refine ⟨{ s with cpu := calling L c n s.cpu },_,.run fun _ _ _ _ _ => rfl,
    @Step.switch _ _ _ _ _ _ back 0 0 _ hcur hne hn (callsSwitch_calling c n s.cpu) (unlocks_id _ n),hcur,rfl,?_⟩
  intro t ht
  rw [State.Alive]
  by_cases htn : t = n
  · subst htn
    change Function.update _ t _ t ≠ _
    rw [Function.update_self]
    nofun
  · change Function.update _ n _ t ≠ _
    rw [Function.update_of_ne htn,setStatus]
    by_cases htc : t = c
    · subst htc
      rw [Function.update_self]
      nofun
    · rw [Function.update_of_ne htc]
      exact ht

/-- Two threads: the first one is started, switches to the second one and gets the processor back. -/
theorem switch_transparent_sample : ∃ s s₁ s₂ s₃ : State Bool,
    (system twoThreads).Reachable s ∧ s.cur = some false ∧ (system twoThreads).step s (.switch true 7) s₁ ∧
      (system twoThreads).step s₂ (.switch false 9) s₃ ∧
      s₃.cpu.regs = s.cpu.regs ∧ s₃.cpu.rflags = s.cpu.rflags ∧ s₃.cpu.rip = 7 := by
  let z : State Bool := ⟨⟨fun _ => 0,2,0,fun _ => 0⟩,none,fun _ => .absent⟩
  have hz : (system twoThreads).Reachable z := .of_init ⟨rfl,fun _ => rfl⟩
  obtain ⟨a,ha,haCur,haStatus⟩ := spawned hz (show z.status false = .absent from rfl)
  obtain ⟨b,hb,hbCur,hbStatus⟩ := spawned ha (show a.status true = .absent by rw [haStatus]; rfl)
  obtain ⟨r,hr,hrCur,hrStatus⟩ := started true hb (hbCur.trans haCur)
    (show b.status false = .fresh by rw [hbStatus,setStatus,haStatus]; rfl)
  have hAlive : r.Alive true := by
    rw [State.Alive,hrStatus,setStatus,hbStatus]
    nofun
  have hAlive' : r.Alive false := by
    rw [State.Alive,hrStatus]
    nofun
  obtain ⟨s,s₁,hrun,hfirst,hcur,hcur₁,hkeep⟩ := switched (L := twoThreads) hrCur (show true ≠ false by decide) hAlive 7
  obtain ⟨s₂,s₃,hrun',hlast,hcur₂,-,-⟩ := switched (L := twoThreads) hcur₁ (show false ≠ true by decide) (hkeep _ hAlive') 9
  have hs := hr.step hrun
  have hwait : ∀ l ∈ [Label.run], ¬ l.Resumes false := by
    intro l hl
    rw [List.mem_singleton.mp hl]
    exact id
  have h := (switch_transparent twoThreads hs (.cons hrun' (.nil _)) hwait hlast rfl).1 true 7 hcur hfirst
  exact ⟨s,s₁,s₂,s₃,hs,hcur,hfirst,hlast,h.1,h.2.1,h.2.2⟩

end HeineOS.Switch
