import HeineOS.Kernel.Machine

/-! The rules that the kernel code keeps to, frame by frame: which guards a step needs, what it may
find, and how far an operation on the scheduler has come. -/
namespace HeineOS.Kernel
open Lib Scheduler Protocol

/-- What the run is restricted to: `guarded` if interrupts come only where their handlers find their
locks free, `clean` if threads exit only without guards and find a next thread then. -/
structure Mode where
  guarded : Bool
  clean : Bool

/-- How far the holder of the scheduler has come, with the threads that it has in hand. -/
inductive Phase where
  | rest
  | popped (next : Thread)
  | taken (current : Thread) (next : Option Thread)
  | placed (current next : Thread)
  | left (current next : Thread)
  | gone (current next : Thread)
  | dropping (t : Thread)
  | starting
  | started (next : Thread)
  deriving DecidableEq

def Phase.after (φ : Phase) : (i : Instr) → i.Result → Phase
  | .setInitialized, _ => .starting
  | .active, some t => if φ = .starting then .started t else φ
  | .takeActive, some c =>
    match φ with
    | .rest => .taken c none
    | .popped n => .taken c (some n)
    | φ => φ
  | .dequeueReady, some n =>
    match φ with
    | .rest => .popped n
    | .taken c none => .taken c (some n)
    | φ => φ
  | .setActive n, _ =>
    match φ with
    | .taken c _ => .placed c n
    | φ => φ
  | .enqueueReady _, _ =>
    match φ with
    | .placed c n => .left c n
    | φ => φ
  | .enqueueTerminated _, _ =>
    match φ with
    | .placed c n => .gone c n
    | φ => φ
  | .removeReady _, some t => .dropping t
  | .dequeueTerminated, some t => .dropping t
  | .dropThread _, _ => .rest
  | .switchStack _, _ => .rest
  | _, _ => φ

/-- What is known while interrupts are disabled: locks that no other frame holds, locks that another
frame holds, the registered vectors, whether the key buffer exists, and the state of the NIC. -/
structure Facts where
  free : List Lock
  taken : List Lock
  isrs : Option (Vector → Bool)
  buffer : Bool
  nic : Option Nic

namespace Facts

def empty : Facts := ⟨[],[],none,false,none⟩

def after (k : Facts) : (i : Instr) → i.Result → Facts
  | .isLocked l, false => { k with free := l :: k.free }
  | .setInt _, _ => empty
  | .replaceIsr _, _ => { k with isrs := none }
  | .receive packet, _ => { k with nic := k.nic.map fun nic => (nic.receive packet).2 }
  | .popPacket, _ => { k with nic := none }
  | _, _ => k

end Facts

/-- What the code of a frame knows: its guards, whether it runs on a thread, its phase, the interrupt
flag if it is known, and the facts. -/
structure Local where
  own : Own
  thread : Bool
  phase : Phase
  ie : Option Bool
  facts : Facts

namespace Local
variable (mode : Mode) (g : Local)

def after (i : Instr) (r : i.Result) : Local where
  own := g.own.after i r
  thread := g.thread
  phase := g.phase.after i r
  ie :=
    match i with
    | .setInt b => some b
    | .switchStack _ => none
    | _ => g.ie
  facts := g.facts.after i r

/-- A handler finds the lock free. -/
def FindsFree (l : Lock) : Prop :=
  mode.guarded = true → g.own.handler = true → g.ie = some false ∧ l ∈ g.facts.free ∧ g.own.holds l = false

/-- The vectors and the keyboard are locked with interrupts disabled only. -/
def MayTake : Lock → Prop
  | .scheduler => g.own.sched = .absent ∧ g.own.handoff = false ∧ g.phase = .rest
  | .intVectors => g.own.ints = .absent ∧ g.ie = some false
  | .keyboard => g.own.keyboard = false ∧ g.ie = some false
  | _ => True

/-- The frame may be left or interrupted. -/
def Suspendable : Prop := g.own.ints ≠ .live ∧ g.own.keyboard = false

/-- The scheduler is held and its holder is in this phase. -/
def At (φ : Phase) : Prop := g.own.sched = .live ∧ g.phase = φ

/-- The phases from which the stack is switched to `n`. A frame that is left for good is no
handler. -/
def Leaves (n : Thread) : Prop :=
  (∃ c, g.phase = .left c n) ∨
  (((∃ c, g.phase = .gone c n) ∨ g.phase = .started n) ∧ g.own.handler = false ∧
    (mode.clean = true → g.own.held = []))

def Allowed : Instr → Prop
  | .lock l => g.MayTake l ∧ g.FindsFree mode l
  | .tryLock l => g.MayTake l
  | .unlock .scheduler => g.own.sched ≠ .absent ∧ g.own.handoff = false ∧ g.phase = .rest
  | .unlock .intVectors => g.own.ints ≠ .absent
  | .unlock .keyboard => g.own.keyboard = true
  | .unlock l => l ∈ g.own.held
  | .forceUnlock .scheduler => g.own.handoff = true ∧ g.own.sched ≠ .live
  | .forceUnlock .intVectors => g.own.ints = .live
  | .forceUnlock _ => False
  | .setInt true => g.Suspendable
  | .initialized => g.At .rest
  | .setInitialized => g.At .rest ∧ g.thread = false
  | .active => g.At .rest ∨ g.At .starting
  | .takeActive => g.thread = true ∧ (g.At .rest ∨ ∃ n, g.At (.popped n))
  | .setActive n => ∃ c, g.At (.taken c (some n))
  | .enqueueReady t => ∃ n, g.At (.placed t n)
  | .enqueueNew _ => g.At .rest
  | .dequeueReady => g.thread = true ∧ (g.At .rest ∨ ∃ c, g.At (.taken c none))
  | .removeReady _ => g.At .rest
  | .enqueueTerminated t => ∃ n, g.At (.placed t n)
  | .dequeueTerminated => g.At .rest
  | .dropThread t => g.At (.dropping t)
  | .switchStack n => g.own.sched = .live ∧ g.Suspendable ∧ g.Leaves mode n
  | .lookupIsr _ => g.own.ints = .live
  | .replaceIsr _ => g.own.ints = .live
  | .halt => mode.clean = true → g.own.sched ≠ .live
  | _ => True

/-- The results that a step may have. -/
def Possible : (i : Instr) → i.Result → Prop
  | .tryLock l, r => g.ie = some false → l ∈ g.facts.taken → r = false
  | .isIntEnabled, r => ∀ b, g.ie = some b → r = b
  | .initialized, r => r = g.thread
  | .active, r => r.isSome = true
  | .takeActive, r => r.isSome = true
  | .dequeueReady, r => mode.clean = true → (∃ c, g.phase = .taken c none) → r.isSome = true
  | .lookupIsr v, r => g.ie = some false → ∀ isrs, g.facts.isrs = some isrs → r = isrs v
  | .swapKeyboardBuffer, r => g.ie = some false → g.facts.buffer = true → r = true
  | .receive packet, r => g.ie = some false → ∀ nic, g.facts.nic = some nic → r = (nic.receive packet).1
  | .act, a =>
    mode.clean = true → (a = .exit ∧ g.thread = true) ∨ (a = .schedule ∧ g.thread = false) →
      g.own.held = []
  | _, _ => True

end Local

def protocol (mode : Mode) : Protocol Instr.Result Proc Local where
  allowed := Local.Allowed mode
  next g i r g' := g.Possible mode i r ∧ g' = g.after i r
  pre
    | .user thread held, g => (∀ l ∈ held, l.shared = true) ∧
      g.own = .user held ∧ g.thread = thread ∧ g.phase = .rest ∧ g.ie = some true
    | .cleanup, g => g.own.handler = false ∧ g.At .rest
  post
    | .user _ _, _, _ => False
    | .cleanup, g, g' => g' = g

/-- A frame is done: a handler without guards. -/
def Done (g : Local) (_ : Unit) : Prop := g.own = .interrupt ∧ g.phase = .rest

section Rules
variable {mode : Mode} {g : Local} {α β : Type}

theorem perform_follows {Q : Local → α → Prop} {i : Instr} {f : i.Result → Code α} (ha : g.Allowed mode i)
    (hf : ∀ r, g.Possible mode i r → (protocol mode).Follows Q (g.after i r) (f r)) :
    (protocol mode).Follows Q g (perform i >>= f) := by
  refine ⟨ha,?_⟩
  intro r g' hn
  obtain ⟨hr,rfl⟩ := hn
  exact hf r hr

theorem last_follows {i : Instr} {Q : Local → i.Result → Prop} (ha : g.Allowed mode i)
    (hf : ∀ r, g.Possible mode i r → Q (g.after i r) r) : (protocol mode).Follows Q g (perform i) := by
  refine ⟨ha,?_⟩
  intro r g' hn
  obtain ⟨hr,rfl⟩ := hn
  exact hf r hr

theorem Local.findsFree_of_user (h : g.own.handler = false) (l : Lock) : g.FindsFree mode l := by
  intro _ hh
  rw [h] at hh
  cases hh

theorem Local.mayTake_plain {l : Lock} (hl : l.plain = true) : g.MayTake l := by
  cases l with
  | scheduler => cases hl
  | intVectors => cases hl
  | keyboard => cases hl
  | _ => trivial

theorem Local.mayUnlock_plain {l : Lock} (hl : l.plain = true) (hm : l ∈ g.own.held) :
    g.Allowed mode (.unlock l) := by
  cases l with
  | scheduler => cases hl
  | intVectors => cases hl
  | keyboard => cases hl
  | _ => exact hm

/-- A section that does nothing but take and drop its lock. -/
theorem section_follows {Q : Local → Unit → Prop} {l : Lock} (hp : l.plain = true) (hl : g.FindsFree mode l)
    (hQ : Q g ()) : (protocol mode).Follows Q g (do lock l; unlock l) := by
  have hg : (g.after (.lock l) ()).after (.unlock l) () = g := by
    simp only [Local.after, Own.after, Own.acquire_plain hp, Own.release_plain hp, List.erase_cons_head,
      Phase.after, Facts.after]
  refine perform_follows ⟨Local.mayTake_plain hp,hl⟩ fun _ _ => last_follows ?_ fun _ _ => ?_
  · apply Local.mayUnlock_plain hp
    simp only [Local.after, Own.after, Own.acquire_plain hp, List.mem_cons_self]
  · rw [hg]
    exact hQ

theorem log_follows {Q : Local → Unit → Prop} (hl : g.FindsFree mode .com1) (hQ : Q g ()) :
    (protocol mode).Follows Q g log :=
  section_follows rfl hl hQ

theorem alloc_follows {Q : Local → Unit → Prop} (hl : g.FindsFree mode .allocator) (hQ : Q g ()) :
    (protocol mode).Follows Q g alloc :=
  section_follows rfl hl hQ

theorem panic_follows {Q : Local → α → Prop} (hl : g.FindsFree mode .com1)
    (hs : mode.clean = true → g.own.sched ≠ .live) : (protocol mode).Follows Q g panic :=
  Follows.bind (log_follows hl ⟨hs,fun r => r.elim⟩)

theorem freeNode_follows {Q : Local → Option Thread → Prop} {t : Option Thread}
    (hl : t.isSome = true → g.FindsFree mode .allocator) (hQ : Q g t) :
    (protocol mode).Follows Q g (freeNode t) := by
  cases t with
  | none => exact hQ
  | some t => exact Follows.bind (alloc_follows (hl rfl) hQ)

end Rules

end HeineOS.Kernel
