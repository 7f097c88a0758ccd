import HeineOS.Kernel.Code
import HeineOS.Lib.System
import Mathlib.Logic.Function.Basic

/-! One CPU. Every context has a stack of frames, the handlers that interrupted it on top, and a frame
carries its code and the lock guards that live in it. -/
namespace HeineOS.Kernel
open Lib Scheduler

/-- The boot code and the threads. -/
inductive Ctx where
  | boot
  | thread (t : Thread)
  deriving DecidableEq, Repr

/-- A guard is stale once its lock was force-unlocked: what is left of it is its drop. -/
inductive Guard where
  | absent
  | live
  | stale
  deriving DecidableEq, Repr

/-- The guards in a frame. `handoff` says that the frame was left in `thread_switch`, so that
it unlocks the scheduler when it goes on. -/
structure Own where
  handler : Bool
  sched : Guard
  ints : Guard
  keyboard : Bool
  held : List Lock
  handoff : Bool
  deriving DecidableEq, Repr

/-- The locks whose guards are listed. -/
def Lock.plain : Lock → Bool
  | .scheduler | .intVectors | .keyboard => false
  | _ => true

namespace Own

def user (held : List Lock) : Own := ⟨false,.absent,.absent,false,held,false⟩
def interrupt : Own := ⟨true,.absent,.absent,false,[],false⟩
def fresh : Own := ⟨false,.absent,.absent,false,[],true⟩

/-- The frame has a guard that keeps the lock locked. -/
def holds (o : Own) : Lock → Bool
  | .scheduler => o.sched == .live
  | .intVectors => o.ints == .live
  | .keyboard => o.keyboard
  | l => o.held.contains l

def acquire (o : Own) : Lock → Own
  | .scheduler => { o with sched := .live }
  | .intVectors => { o with ints := .live }
  | .keyboard => { o with keyboard := true }
  | l => { o with held := l :: o.held }

def release (o : Own) : Lock → Own
  | .scheduler => { o with sched := .absent }
  | .intVectors => { o with ints := .absent }
  | .keyboard => { o with keyboard := false }
  | l => { o with held := o.held.erase l }

/-- The guards behind a step. -/
def after (o : Own) : (i : Instr) → i.Result → Own
  | .lock l, _ => o.acquire l
  | .tryLock l, r => if r then o.acquire l else o
  | .unlock l, _ => o.release l
  | .forceUnlock .scheduler, _ => { o with handoff := false }
  | .forceUnlock .intVectors, _ => { o with ints := .stale }
  | .switchStack _, _ => { o with sched := .stale, handoff := true }
  | _, _ => o

variable {o : Own} {l : Lock}

theorem holds_plain (hl : l.plain = true) : o.holds l = o.held.contains l := by
  cases l with
  | scheduler => cases hl
  | intVectors => cases hl
  | keyboard => cases hl
  | _ => rfl

theorem acquire_plain (hl : l.plain = true) : o.acquire l = { o with held := l :: o.held } := by
  cases l with
  | scheduler => cases hl
  | intVectors => cases hl
  | keyboard => cases hl
  | _ => rfl

theorem release_plain (hl : l.plain = true) : o.release l = { o with held := o.held.erase l } := by
  cases l with
  | scheduler => cases hl
  | intVectors => cases hl
  | keyboard => cases hl
  | _ => rfl

theorem holds_acquire (o : Own) (l l' : Lock) : (o.acquire l).holds l' = (l' == l || o.holds l') := by
  cases l <;> cases l' <;> first | exact List.contains_cons | simp [acquire, holds]

theorem holds_release_ne (o : Own) {l l' : Lock} (h : l' ≠ l) : (o.release l).holds l' = o.holds l' := by
  cases l <;> cases l' <;> simp_all [release, holds, List.mem_erase_of_ne]

end Own

structure Frame where
  code : Code Unit
  own : Own

/-- The CPU and the memory of the kernel. `rsp0` is the context whose stack the TSS points to the top of. -/
structure Machine where
  locked : Lock → Bool
  intEnabled : Bool
  state : SchedulerState
  dropped : List Thread
  isrs : Vector → Bool
  time : Nat
  keyboardBuffer : Bool
  nic : Nic
  rsp0 : Ctx
  cur : Ctx
  stack : Ctx → List Frame

/-- What happens next: a step of the running code, with the outcome of an open choice, or an
interrupt. -/
inductive Label where
  | run
  | act (a : Act)
  | flip (b : Bool)
  | interrupt (i : Interrupt)
  deriving DecidableEq, Repr

namespace Machine
variable (m : Machine)

def setLock (l : Lock) (b : Bool) : Machine := { m with locked := Function.update m.locked l b }
def setState (s : SchedulerState) : Machine := { m with state := s }
def setRsp0 (t : Thread) : Machine := { m with rsp0 := .thread t }
def setStack (c : Ctx) (fs : List Frame) : Machine := { m with stack := Function.update m.stack c fs }

theorem setLock_self (l : Lock) (b : Bool) : (m.setLock l b).locked l = b := Function.update_self _ _ _

theorem setLock_ne {l l' : Lock} (h : l' ≠ l) (b : Bool) : (m.setLock l b).locked l' = m.locked l' :=
  Function.update_of_ne h _ _

theorem setStack_self (c : Ctx) (fs : List Frame) : (m.setStack c fs).stack c = fs :=
  Function.update_self _ _ _

theorem setStack_ne {c c' : Ctx} (h : c' ≠ c) (fs : List Frame) : (m.setStack c fs).stack c' = m.stack c' :=
  Function.update_of_ne h _ _

@[simp] theorem setLock_state (l : Lock) (b : Bool) : (m.setLock l b).state = m.state := rfl
@[simp] theorem setState_state (s : SchedulerState) : (m.setState s).state = s := rfl
@[simp] theorem setState_setState (s s' : SchedulerState) : (m.setState s).setState s' = m.setState s' := rfl

theorem setLock_setLock (l : Lock) (b b' : Bool) : (m.setLock l b).setLock l b' = m.setLock l b' := by
  simp only [setLock, Function.update_idem]

theorem setStack_setStack (c : Ctx) (fs fs' : List Frame) :
    (m.setStack c fs).setStack c fs' = m.setStack c fs' := by
  simp only [setStack, Function.update_idem]

theorem setLock_eq_self {l : Lock} {b : Bool} (h : m.locked l = b) : m.setLock l b = m := by
  rw [setLock,← h,Function.update_eq_self]

theorem setStack_eq_self (c : Ctx) : m.setStack c (m.stack c) = m := by
  rw [setStack,Function.update_eq_self]

/-- The result and effect of a step. A taken lock blocks, and so does `halt`. -/
def perform : (i : Instr) → Label → Option (i.Result × Machine)
  | .lock l, .run => if m.locked l then none else some ((),m.setLock l true)
  | .tryLock l, .run => some (!m.locked l,m.setLock l true)
  | .unlock l, .run => some ((),m.setLock l false)
  | .forceUnlock l, .run => some ((),m.setLock l false)
  | .isLocked l, .run => some (m.locked l,m)
  | .isIntEnabled, .run => some (m.intEnabled,m)
  | .setInt b, .run => some ((),{ m with intEnabled := b })
  | .initialized, .run => some (m.state.initialized,m)
  | .setInitialized, .run => some ((),m.setState { m.state with initialized := true })
  | .active, .run => some (m.state.activeThread,m)
  | .takeActive, .run => some (m.state.activeThread,m.setState { m.state with activeThread := none })
  | .setActive t, .run => some ((),m.setState { m.state with activeThread := some t })
  | .enqueueReady t, .run =>
    some ((),m.setState { m.state with readyQueue := m.state.readyQueue.enqueue t })
  | .enqueueNew t, .run =>
    if (m.stack (.thread t)).isEmpty then
      some ((),(m.setState { m.state with readyQueue := m.state.readyQueue.enqueue t }).setStack (.thread t)
        [⟨kickoff t,.fresh⟩])
    else none
  | .dequeueReady, .run =>
    let (t,readyQueue) := m.state.readyQueue.dequeue
    some (t,m.setState { m.state with readyQueue })
  | .removeReady id, .run =>
    let (t,readyQueue) := m.state.readyQueue.remove fun t => t.id == id
    some (t,m.setState { m.state with readyQueue })
  | .enqueueTerminated t, .run =>
    some ((),m.setState { m.state with terminatedThreads := m.state.terminatedThreads.enqueue t })
  | .dequeueTerminated, .run =>
    let (t,terminatedThreads) := m.state.terminatedThreads.dequeue
    some (t,m.setState { m.state with terminatedThreads })
  | .dropThread t, .run => some ((),{ m with dropped := t :: m.dropped })
  | .setRsp0 t, .run => some ((),m.setRsp0 t)
  | .switchStack t, .run => some ((),{ m with cur := .thread t })
  | .lookupIsr v, .run => some (m.isrs v,m)
  | .replaceIsr v, .run => some (m.isrs v,{ m with isrs := Function.update m.isrs v true })
  | .fetchTime, .run => some (m.time,{ m with time := (m.time + 1) % 2^64 })
  | .swapKeyboardBuffer, .run => some (m.keyboardBuffer,{ m with keyboardBuffer := true })
  | .receive packet, .run => some ((m.nic.receive packet).1,{ m with nic := (m.nic.receive packet).2 })
  | .popPacket, .run => some ((),{ m with nic := { m.nic with rxQueueSize := m.nic.rxQueueSize - 1 } })
  | .act, .act a => some (a,m)
  | .flip, .flip b => some (b,m)
  | _, _ => none

theorem perform_lock (l : Lock) :
    m.perform (.lock l) .run = if m.locked l then none else some ((),m.setLock l true) := by
  rw [perform]

/-- A step. An interrupt clears the flag and puts its handler on the current stack, and the `iret`
at the end of a handler sets the flag again. -/
def exec (label : Label) : Option Machine :=
  match label with
  | .interrupt i =>
    if m.intEnabled then
      some ({ m with intEnabled := false }.setStack m.cur (⟨dispatchInterrupt i,.interrupt⟩ :: m.stack m.cur))
    else none
  | label =>
    match m.stack m.cur with
    | [] => none
    | ⟨.pure _,own⟩ :: fs =>
      if label = .run ∧ own.handler then some ({ m with intEnabled := true }.setStack m.cur fs) else none
    | ⟨.call p k,own⟩ :: fs =>
      if label = .run then some (m.setStack m.cur (⟨p.body >>= fun _ => k,own⟩ :: fs)) else none
    | ⟨.op i k,own⟩ :: fs =>
      match m.perform i label with
      | none => none
      | some (r,m') => some (m'.setStack m.cur (⟨k r,own.after i r⟩ :: fs))

/-- The four kinds of steps. -/
inductive Step : Label → Machine → Prop where
  | interrupt (i : Interrupt) (hie : m.intEnabled = true) :
    Step (.interrupt i)
      ({ m with intEnabled := false }.setStack m.cur (⟨dispatchInterrupt i,.interrupt⟩ :: m.stack m.cur))
  | iret {own : Own} {fs : List Frame} (hs : m.stack m.cur = ⟨.pure (),own⟩ :: fs) (hh : own.handler = true) :
    Step .run ({ m with intEnabled := true }.setStack m.cur fs)
  | call {p : Proc} {k : Code Unit} {own : Own} {fs : List Frame} (hs : m.stack m.cur = ⟨.call p k,own⟩ :: fs) :
    Step .run (m.setStack m.cur (⟨p.body >>= fun _ => k,own⟩ :: fs))
  | op {i : Instr} {k : i.Result → Code Unit} {own : Own} {fs : List Frame} {label : Label} {r : i.Result}
      {m' : Machine} (hs : m.stack m.cur = ⟨.op i k,own⟩ :: fs) (hp : m.perform i label = some (r,m')) :
    Step label (m'.setStack m.cur (⟨k r,own.after i r⟩ :: fs))

variable {m} in
theorem Step.of_exec {m' : Machine} {label : Label} (h : m.exec label = some m') : m.Step label m' := by
  have key : ∀ label, (∀ i, label ≠ .interrupt i) → m.exec label = some m' → m.Step label m' := by
    intro label hl h
    cases hs : m.stack m.cur with
    | nil =>
      cases label with
      | interrupt i => exact absurd rfl (hl i)
      | _ => simp [exec, hs] at h
    | cons f fs =>
      obtain ⟨code,own⟩ := f
      cases code with
      | pure a =>
        cases label with
        | interrupt i => exact absurd rfl (hl i)
        | run =>
          simp only [exec, hs, true_and] at h
          split at h
          · rename_i hh
            cases h
            exact .iret hs hh
          · cases h
        | _ => simp [exec, hs] at h
      | call p k =>
        cases label with
        | interrupt i => exact absurd rfl (hl i)
        | run =>
          simp only [exec, hs, if_true, Option.some.injEq] at h
          rw [← h]
          exact .call hs
        | _ => simp [exec, hs] at h
      | op i k =>
        cases hp : m.perform i label with
        | none =>
          cases label with
          | interrupt i => exact absurd rfl (hl i)
          | _ => simp [exec, hs, hp] at h
        | some x =>
          obtain ⟨r,m''⟩ := x
          have hm : m' = m''.setStack m.cur (⟨k r,own.after i r⟩ :: fs) := by
            cases label with
            | interrupt i => exact absurd rfl (hl i)
            | _ => simpa [exec, hs, hp] using h.symm
          rw [hm]
          exact .op hs hp
  cases label with
  | interrupt i =>
    rw [exec] at h
    split at h
    · rename_i hie
      cases h
      exact .interrupt i hie
    · cases h
  | run => exact key _ (fun _ => nofun) h
  | act a => exact key _ (fun _ => nofun) h
  | flip b => exact key _ (fun _ => nofun) h

/-- The boot code runs with interrupts enabled and the idle thread has been created. -/
def start (idle : Thread) (isrs : Vector → Bool) (time : Nat) (nic : Nic) : Machine where
  locked _ := false
  intEnabled := true
  state := Scheduler.new idle
  dropped := []
  isrs
  time
  keyboardBuffer := false
  nic
  rsp0 := .boot
  cur := .boot
  stack
    | .boot => [⟨call (.user false []),.user []⟩]
    | .thread t => if t = idle then [⟨kickoff t,.fresh⟩] else []

def system : System Machine Label where
  init m := ∃ idle isrs time nic, m = start idle isrs time nic
  step m label m' := m.exec label = some m'

/-- Labels, each followed by some steps of the running code. -/
def script (labels : List (Label × Nat)) : List Label :=
  labels.flatMap fun p => p.1 :: List.replicate p.2 .run

/-- Take the steps one after the other, as long as they pass a check. -/
def execAll (check : Machine → Label → Bool) (m : Machine) : List Label → Option Machine
  | [] => some m
  | label :: labels =>
    if check m label then
      match m.exec label with
      | none => none
      | some m' => m'.execAll check labels
    else none

theorem run_of_execAll {check : Machine → Label → Bool} {m m' : Machine} {labels : List Label}
    (h : m.execAll check labels = some m') :
    (system.restrict fun m label => check m label = true).Run m labels m' := by
  induction labels generalizing m with
  | nil =>
    obtain rfl := Option.some.inj h
    exact .nil m
  | cons label labels ih =>
    rw [execAll] at h
    split at h
    · rename_i hc
      split at h
      · cases h
      · rename_i m'' hs
        exact .cons ⟨hc,hs⟩ (ih h)
    · cases h

/-- A run from the start of the boot code that passes a check and ends as wanted. -/
theorem reachable_of_execAll {check : Machine → Label → Bool} {goal : Machine → Bool} {labels : List Label}
    {idle : Thread} {isrs : Vector → Bool} {time : Nat} {nic : Nic}
    (h : ((start idle isrs time nic).execAll check labels).any goal = true) :
    ∃ m, (system.restrict fun m label => check m label = true).Reachable m ∧ goal m = true := by
  obtain ⟨m,hm,hg⟩ := (Option.any_eq_true _ _).mp h
  exact ⟨m,⟨_,labels,⟨idle,isrs,time,nic,rfl⟩,run_of_execAll hm⟩,hg⟩

end Machine

end HeineOS.Kernel
