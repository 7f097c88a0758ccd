import HeineOS.Kernel.HandOff
import HeineOS.Kernel.Watch

/-! The lock of the allocator and context switches: a second protocol, about that lock alone, which shows that
no stack is left while the heap is locked. -/
namespace HeineOS.Kernel
open Lib Scheduler Protocol

/-- What a frame knows about the heap: whether it is a handler, whether it holds the lock, and, while interrupts
are known to be disabled, whether it has seen the lock free. -/
structure HeapView where
  handler : Bool
  holds : Bool
  off : Bool
  seen : Bool

namespace HeapView
variable (v : HeapView)

def after : (i : Instr) → i.Result → HeapView
  | .lock .allocator, _ => { v with holds := true }
  | .unlock .allocator, _ => { v with holds := false }
  | .isLocked .allocator, false => { v with seen := true }
  | .setInt b, _ => { v with off := !b, seen := false }
  | .switchStack _, _ => { v with off := false, seen := false }
  | _, _ => v

def Allowed : Instr → Prop
  | .lock .allocator => v.holds = false
  | .tryLock .allocator => False
  | .unlock .allocator => v.holds = true
  | .forceUnlock .allocator => False
  | .switchStack _ => v.holds = false ∧ (v.handler = true → v.off = true ∧ v.seen = true)
  | _ => True

/-- The lock is not held between the functions, and a thread is no handler. -/
def Idle : Prop := v.holds = false
def Calm : Prop := v.handler = false ∧ v.holds = false

end HeapView

def heapProtocol : Protocol Instr.Result Proc HeapView where
  allowed := HeapView.Allowed
  next v i r v' := v' = v.after i r
  pre
    | .user _ held, v => v.Calm ∧ .allocator ∉ held
    | .cleanup, v => v.Idle
  post
    | .user _ _, _, _ => False
    | .cleanup, v, v' => v' = v

section Programs
variable {α : Type} {v : HeapView}

theorem HeapView.of_plain {i : Instr} (hi : i.plain = true) : v.Allowed i ∧ ∀ r, v.after i r = v := by
  cases i with
  | lock l => cases l <;> first | exact ⟨trivial,fun _ => rfl⟩ | cases hi
  | tryLock l => cases l <;> first | exact ⟨trivial,fun _ => rfl⟩ | cases hi
  | unlock l => cases l <;> first | exact ⟨trivial,fun _ => rfl⟩ | cases hi
  | forceUnlock l => cases l <;> first | exact ⟨trivial,fun _ => rfl⟩ | cases hi
  | isLocked l => cases l <;> first | exact ⟨trivial,fun _ => rfl⟩ | cases hi
  | setInt b => cases hi
  | switchStack t => cases hi
  | _ => exact ⟨trivial,fun _ => rfl⟩

theorem heap_perform {Q : HeapView → α → Prop} {i : Instr} {f : i.Result → Code α} (ha : v.Allowed i)
    (hf : ∀ r, heapProtocol.Follows Q (v.after i r) (f r)) : heapProtocol.Follows Q v (perform i >>= f) := by
  refine ⟨ha,?_⟩
  rintro r v' rfl
  exact hf r

theorem heap_last {i : Instr} {Q : HeapView → i.Result → Prop} (ha : v.Allowed i)
    (hf : ∀ r, Q (v.after i r) r) : heapProtocol.Follows Q v (perform i) := by
  refine ⟨ha,?_⟩
  rintro r v' rfl
  exact hf r

private theorem HeapView.released (hv : v.Idle) : { v with holds := false } = v := by
  obtain ⟨handler,holds,off,seen⟩ := v
  obtain rfl : holds = false := hv
  rfl

/-- The heap is locked while its free list is printed. -/
theorem dumpFreeList_heap (lines : List Nat) : Neutral heapProtocol HeapView.Idle (dumpFreeList lines) := by
  intro v hv
  have hplain : ∀ i : Instr, i.plain = true → Neutral heapProtocol (fun _ => True) (perform i) :=
    fun i hi _ _ => heap_last (HeapView.of_plain hi).1 (HeapView.of_plain hi).2
  have hprint := Neutral.forM (println_neutral hplain) lines
  refine heap_perform hv fun _ => Follows.bind ((hprint _ trivial).mono ?_)
  rintro _ _ rfl
  exact heap_last rfl fun _ => HeapView.released hv

theorem heap_watch : Watch heapProtocol HeapView.Idle where
  plain _ hi _ _ := heap_last (HeapView.of_plain hi).1 (HeapView.of_plain hi).2
  alloc _ hv := heap_perform hv fun _ => heap_last rfl fun _ => HeapView.released hv
  dumpFreeList := dumpFreeList_heap
  cleanup _ hv := ⟨hv,fun _ h => h⟩

/-- The code does not hold the lock at its end. -/
def Lets (v v' : HeapView) : Prop := v'.handler = v.handler ∧ v'.holds = false

theorem Neutral.lets {x : Code α} (hx : Neutral heapProtocol HeapView.Idle x) (hv : v.Idle) :
    heapProtocol.Follows (fun v' _ => Lets v v') v x := by
  apply (hx v hv).mono
  rintro _ _ rfl
  exact ⟨rfl,hv⟩

private theorem Lets.calm {v' : HeapView} (h : Lets v v') (hv : v.Calm) : v'.Calm := ⟨h.1.trans hv.1,h.2⟩

theorem threadSwitch_heap {next : Thread} (hv : v.Idle) (hh : v.handler = true → v.off = true ∧ v.seen = true) :
    heapProtocol.Follows (fun v' _ => Lets v v') v (threadSwitch next) := by
  refine heap_perform trivial fun flags => heap_perform trivial fun _ => heap_perform ⟨hv,hh⟩ fun _ => ?_
  exact heap_perform trivial fun _ => heap_last trivial fun _ => ⟨rfl,hv⟩

/-- In a handler the lock is looked at with interrupts disabled. -/
theorem yieldCpu_heap (hv : v.Idle) (hh : v.handler = true → v.off = true) :
    heapProtocol.Follows (fun v' _ => Lets v v') v yieldCpu := by
  refine (heap_watch.tryLock rfl).then hv fun taken => ?_
  cases taken with
  | false => exact ⟨rfl,hv⟩
  | true =>
    refine (heap_watch.plain .initialized rfl).then hv fun initialized => ?_
    cases initialized with
    | false => exact (heap_watch.unlock rfl).lets hv
    | true =>
      refine heap_perform trivial fun allocatorLocked => ?_
      cases allocatorLocked with
      | true => exact (heap_watch.unlock rfl).lets hv
      | false =>
        have hw : ({ v with seen := true } : HeapView).Idle := hv
        refine heap_watch.readyDequeue.then hw fun next => ?_
        cases next with
        | none => exact (heap_watch.unlock rfl).lets hw
        | some next =>
          refine (heap_watch.plain .takeActive rfl).then hw fun current => ?_
          cases current with
          | none => exact heap_watch.panic.lets hw
          | some current =>
            refine (heap_watch.plain (.setActive next) rfl).then hw fun _ => ?_
            refine heap_watch.alloc.then hw fun _ => (heap_watch.plain (.enqueueReady current) rfl).then hw fun _ => ?_
            refine Follows.bind ((threadSwitch_heap hw fun h => ⟨hh h,rfl⟩).mono ?_)
            intro v' _ hv'
            apply ((heap_watch.unlock rfl).lets hv'.2).mono
            exact fun _ _ h => ⟨h.1.trans hv'.1,h.2⟩

private theorem HeapView.Calm.leaves (hv : v.Calm) : v.handler = true → v.off = true ∧ v.seen = true := by
  intro h
  rw [hv.1] at h
  cases h

theorem exit_heap : Keeps heapProtocol HeapView.Calm exit := by
  intro v hv
  refine (heap_watch.lock rfl).then hv.2 fun _ => (heap_watch.plain .takeActive rfl).then hv.2 fun current => ?_
  cases current with
  | none => exact (heap_watch.panic.lets hv.2).mono fun _ _ h => h.calm hv
  | some current =>
    refine heap_watch.readyDequeue.then hv.2 fun next => ?_
    cases next with
    | none => exact (heap_watch.panic.lets hv.2).mono fun _ _ h => h.calm hv
    | some next =>
      refine (heap_watch.plain (.setActive next) rfl).then hv.2 fun _ => heap_watch.alloc.then hv.2 fun _ => ?_
      refine (heap_watch.plain (.enqueueTerminated current) rfl).then hv.2 fun _ => ?_
      refine Follows.bind ((threadSwitch_heap hv.2 hv.leaves).mono ?_)
      intro v' _ hv'
      exact ((heap_watch.unlock rfl).lets hv'.2).mono fun _ _ h => h.calm (hv'.calm hv)

theorem schedule_heap : Keeps heapProtocol HeapView.Calm schedule := by
  intro v hv
  refine (heap_watch.lock rfl).then hv.2 fun _ => (heap_watch.plain .setInitialized rfl).then hv.2 fun _ => ?_
  refine (heap_watch.plain .active rfl).then hv.2 fun active => ?_
  cases active with
  | none => exact (heap_watch.panic.lets hv.2).mono fun _ _ h => h.calm hv
  | some t => exact heap_perform ⟨hv.2,hv.leaves⟩ fun _ => ⟨trivial,fun r => r.elim⟩

theorem register_heap (u : Vector) : Keeps heapProtocol HeapView.Calm (register u) := by
  intro v hv
  refine heap_perform trivial fun ie => heap_perform trivial fun _ => ?_
  have hw : ({ v with off := true, seen := false } : HeapView).Idle := hv.2
  refine (heap_watch.lock rfl).then hw fun _ => (heap_watch.plain (.replaceIsr u) rfl).then hw fun replaced => ?_
  have hend : heapProtocol.Follows (fun v' _ => v'.Calm) { v with off := true, seen := false }
      (do unlock .intVectors; if ie = true then setInt true) := by
    refine (heap_watch.unlock rfl).then hw fun _ => ?_
    cases ie with
    | false => exact hv
    | true => exact heap_last trivial fun _ => hv
  cases replaced with
  | false => exact hend
  | true =>
    refine (heap_watch.plain .flip rfl).then hw fun sized => ?_
    cases sized with
    | false => exact hend
    | true => exact heap_watch.alloc.then hw fun _ => hend

/-- An interrupt handler starts with interrupts disabled. -/
def HeapView.interrupt : HeapView := ⟨true,false,true,false⟩

theorem dispatchInterrupt_heap (i : Interrupt) :
    heapProtocol.Follows (fun v _ => v.holds = false) .interrupt (dispatchInterrupt i) := by
  have hyield := @yieldCpu_heap .interrupt rfl fun _ => rfl
  have hidle : HeapView.interrupt.Idle := rfl
  apply (heap_watch.dispatchInterrupt (R := Lets) hidle ⟨rfl,rfl⟩ (fun _ h => h.2) hyield i).mono
  exact fun _ _ h => h.2

theorem body_heap : heapProtocol.Sound Proc.body := by
  intro p v hp
  cases p with
  | user thread held =>
    obtain ⟨hv,hheld⟩ := hp
    have hyield : Keeps heapProtocol HeapView.Calm yieldCpu := by
      intro v hv
      refine (yieldCpu_heap hv.2 fun h => (hv.leaves h).1).mono fun _ _ h => h.calm hv
    refine heap_perform trivial fun a => Follows.bind (Follows.mono ?_ (heap_watch.doAct (fun _ h => h.2) hyield
      exit_heap register_heap (fun _ => schedule_heap) hv hheld a))
    exact fun v' held' h => ⟨h,fun _ hf => hf.elim⟩
  | cleanup => exact heap_watch.cleanup_body v hp

theorem kickoff_heap {Q : HeapView → Unit → Prop} (hv : v.Calm) (t : Thread) :
    heapProtocol.Follows Q v (kickoff t) := by
  refine heap_perform trivial fun _ => heap_perform trivial fun _ => heap_perform trivial fun _ => ?_
  exact heap_perform trivial fun _ => ⟨⟨hv,List.not_mem_nil⟩,fun _ hf => hf.elim⟩

end Programs

/-- The guards of the allocator's lock on a stack. -/
def heapGuards (fs : List Frame) : Nat := (fs.map fun f => f.own.held.count .allocator).sum

/-- The code of a frame keeps to the protocol from a view that fits its guards. -/
structure Viewed (f : Frame) (v : HeapView) : Prop where
  handler : v.handler = f.own.handler
  holds : f.own.held.count .allocator = if v.holds then 1 else 0
  follows : heapProtocol.Follows (fun v _ => v.holds = false) v f.code

/-- A frame that does not run, as a frame that may be left at any time. -/
def Dormant (f : Frame) : Prop := ∃ v, Viewed f v ∧ v.off = false

/-- The invariant about the heap, for the running frame `f` over the frames `fs`. -/
structure Machine.HeapInv (m : Machine) (f : Frame) (fs : List Frame) (v : HeapView) : Prop where
  stack : m.stack m.cur = f :: fs
  view : Viewed f v
  off : v.off = true → m.intEnabled = false
  seen : v.off = true → v.seen = true → heapGuards fs = 0
  dormant : ∀ f' ∈ fs, Dormant f'
  parked : ∀ c, c ≠ m.cur → heapGuards (m.stack c) = 0 ∧ ∀ f' ∈ m.stack c, Dormant f'
  count : heapGuards (f :: fs) = if m.locked .allocator then 1 else 0

def Machine.HeapOk (m : Machine) : Prop := ∃ f fs v, m.HeapInv f fs v

section
variable {f : Frame} {fs : List Frame}

@[simp] theorem heapGuards_nil : heapGuards [] = 0 := rfl

@[simp] theorem heapGuards_cons : heapGuards (f :: fs) = f.own.held.count .allocator + heapGuards fs := by
  simp only [heapGuards, List.map_cons, List.sum_cons]

theorem dormant_kickoff (t : Thread) : Dormant ⟨kickoff t,.fresh⟩ :=
  ⟨⟨false,false,false,false⟩,⟨rfl,rfl,kickoff_heap ⟨rfl,rfl⟩ t⟩,rfl⟩

theorem Own.after_count {o : Own} {i : Instr} (hi : i.locksHeap = false) (r : i.Result) :
    (o.after i r).held.count .allocator = o.held.count .allocator := by
  have hacquire : ∀ l, (l == Lock.allocator) = false →
      (o.acquire l).held.count .allocator = o.held.count .allocator := by
    intro l hl
    by_cases hp : l.plain = true
    · rw [Own.acquire_plain hp]
      exact List.count_cons_of_ne (beq_eq_false_iff_ne.mp hl)
    · cases l <;> first | rfl | exact absurd rfl hp
  have hrelease : ∀ l, (l == Lock.allocator) = false →
      (o.release l).held.count .allocator = o.held.count .allocator := by
    intro l hl
    by_cases hp : l.plain = true
    · rw [Own.release_plain hp]
      exact List.count_erase_of_ne (beq_eq_false_iff_ne.mp hl).symm
    · cases l <;> first | rfl | exact absurd rfl hp
  cases i with
  | lock l => exact hacquire l hi
  | tryLock l =>
    cases r with
    | false => rfl
    | true => exact hacquire l hi
  | unlock l => exact hrelease l hi
  | forceUnlock l => cases l <;> rfl
  | _ => rfl

end

namespace Machine
variable {m m' : Machine} {label : Label}

namespace HeapInv
variable {f : Frame} {fs : List Frame} {v v' : HeapView} {i : Instr} {k : i.Result → Code Unit} {o : Own}

/-- The running frame goes on. -/
private theorem advance (h : m.HeapInv f fs v) (hcur : m'.cur = m.cur)
    (hstack : ∀ c, m.SameStack m' c) {f' : Frame}
    (hview : Viewed f' v') (hoff : v'.off = true → m'.intEnabled = false)
    (hseen : v'.off = true → v'.seen = true → heapGuards fs = 0)
    (hcount : heapGuards (f' :: fs) = if m'.locked .allocator then 1 else 0) :
    (m'.setStack m.cur (f' :: fs)).HeapInv f' fs v' where
  stack := by
    change (m'.setStack m.cur (f' :: fs)).stack m'.cur = _
    rw [hcur,setStack_self]
  view := hview
  off := hoff
  seen := hseen
  dormant := h.dormant
  parked := by
    intro c hc
    change c ≠ m'.cur at hc
    rw [hcur] at hc
    rw [setStack_ne _ hc]
    rcases hstack c with hs | ⟨t,_,_,hs⟩
    · rw [hs]
      exact h.parked c hc
    · rw [hs]
      refine ⟨rfl,?_⟩
      intro f' hf'
      rw [List.mem_singleton.mp hf']
      exact dormant_kickoff t
  count := hcount

private theorem after_counted (hi : i.locksHeap = false) (r : i.Result) :
    (v.after i r).handler = v.handler ∧ (v.after i r).holds = v.holds := by
  cases i with
  | lock l => cases l <;> first | exact ⟨rfl,rfl⟩ | cases hi
  | unlock l => cases l <;> first | exact ⟨rfl,rfl⟩ | cases hi
  | isLocked l => cases l <;> cases r <;> exact ⟨rfl,rfl⟩
  | _ => exact ⟨rfl,rfl⟩

private theorem viewed_after (h : Viewed ⟨.op i k,o⟩ v) (hi : i.locksHeap = false) (r : i.Result) :
    Viewed ⟨k r,o.after i r⟩ (v.after i r) := by
  obtain ⟨hh,hv⟩ := @after_counted v i hi r
  refine ⟨?_,?_,h.follows.2 r _ rfl⟩
  · rw [hh,Own.after_handler]
    exact h.handler
  · rw [Own.after_count hi,hv]
    exact h.holds

/-- The lock is taken or dropped. -/
private theorem relock (h : m.HeapInv ⟨.op i k,o⟩ fs v) {b : Bool} {x : Code Unit}
    {o' : Own} (hh : o'.handler = o.handler)
    (hcount : o'.held.count .allocator = if b then 1 else 0) (hfree : heapGuards fs = 0)
    (hf : heapProtocol.Follows (fun v _ => v.holds = false) { v with holds := b } x) :
    ((m.setLock .allocator b).setStack m.cur (⟨x,o'⟩ :: fs)).HeapInv ⟨x,o'⟩ fs { v with holds := b } := by
  have hview : Viewed ⟨x,o'⟩ { v with holds := b } := by
    refine ⟨?_,hcount,hf⟩
    rw [hh]
    exact h.view.handler
  apply h.advance ?_ ?_ hview ?_ h.seen
  · rw [heapGuards_cons,hcount,hfree,setLock_self,Nat.add_zero]
  · rfl
  · exact fun _ => .inl rfl
  · exact h.off

/-- A stack that was left goes on. -/
private theorem resume (hfree : m.locked .allocator = false)
    (hall : ∀ c, heapGuards (m.stack c) = 0 ∧ ∀ f' ∈ m.stack c, Dormant f') (hne : m.stack m.cur ≠ []) :
    m.HeapOk := by
  obtain ⟨f,fs,hs⟩ := List.exists_cons_of_ne_nil hne
  obtain ⟨hg,hd⟩ := hall m.cur
  rw [hs] at hg hd
  obtain ⟨v,hv,hoff⟩ := hd f List.mem_cons_self
  refine ⟨f,fs,v,hs,hv,?_,?_,fun f' hf' => hd f' (List.mem_cons_of_mem _ hf'),fun c _ => hall c,?_⟩
  · intro h
    rw [hoff] at h
    cases h
  · intro h
    rw [hoff] at h
    cases h
  · rw [hg,hfree]
    rfl

/-- Nothing on the stack keeps the heap locked when it is left. -/
private theorem switch_free {n : Thread} {k : Unit → Code Unit} (h : m.HeapInv ⟨.op (.switchStack n) k,o⟩ fs v)
    (hfs : o.handler = !fs.isEmpty) :
    o.held.count .allocator = 0 ∧ heapGuards fs = 0 ∧ m.locked .allocator = false := by
  obtain ⟨hholds,hseen⟩ := h.view.follows.1
  have htop : o.held.count .allocator = 0 := by
    have hc := h.view.holds
    rw [hholds] at hc
    exact hc
  have hrest : heapGuards fs = 0 := by
    cases hh : o.handler with
    | true =>
      obtain ⟨h1,h2⟩ := hseen (h.view.handler.trans hh)
      exact h.seen h1 h2
    | false =>
      rw [hh] at hfs
      cases fs with
      | nil => rfl
      | cons f fs => cases hfs
  refine ⟨htop,hrest,?_⟩
  have hc := h.count
  rw [heapGuards_cons,htop,hrest] at hc
  cases hl : m.locked .allocator with
  | false => rfl
  | true =>
    rw [hl] at hc
    cases hc

private theorem switch {n : Thread} {k : Unit → Code Unit} (h : m.HeapInv ⟨.op (.switchStack n) k,o⟩ fs v)
    (hfs : o.handler = !fs.isEmpty) (hl : m'.locked = m.locked)
    (hself : m'.stack m.cur = ⟨k (),o.after (.switchStack n) ()⟩ :: fs)
    (hother : ∀ c, c ≠ m.cur → m'.stack c = m.stack c) (hne : m'.stack m'.cur ≠ []) :
    m'.HeapOk := by
  obtain ⟨htop,hrest,hfree⟩ := h.switch_free hfs
  refine resume (by rw [hl,hfree]) (fun c => ?_) hne
  by_cases hc : c = m.cur
  · rw [hc,hself,heapGuards_cons,hrest]
    refine ⟨htop,?_⟩
    intro f' hf'
    rcases List.mem_cons.mp hf' with rfl | hf'
    · exact ⟨_,viewed_after h.view rfl (),rfl⟩
    · exact h.dormant f' hf'
  · rw [hother c hc]
    exact h.parked c hc

private theorem top_count (h : m.HeapInv ⟨.op i k,o⟩ fs v) :
    o.held.count .allocator + heapGuards fs = if m.locked .allocator then 1 else 0 := by
  rw [← h.count,heapGuards_cons]

private theorem acquire {k : Unit → Code Unit} (h : m.HeapInv ⟨.op (.lock .allocator) k,o⟩ fs v)
    (hl : m.locked .allocator = false) :
    ((m.setLock .allocator true).setStack m.cur (⟨k (),o.acquire .allocator⟩ :: fs)).HeapInv
      ⟨k (),o.acquire .allocator⟩ fs { v with holds := true } := by
  have hc := h.top_count
  rw [hl] at hc
  obtain ⟨hc,hfree⟩ := Nat.add_eq_zero_iff.mp hc
  refine h.relock rfl ?_ hfree (h.view.follows.2 () _ rfl)
  change List.count _ (Lock.allocator :: o.held) = 1
  rw [List.count_cons_self,hc]

private theorem drop {k : Unit → Code Unit} (h : m.HeapInv ⟨.op (.unlock .allocator) k,o⟩ fs v) :
    ((m.setLock .allocator false).setStack m.cur (⟨k (),o.release .allocator⟩ :: fs)).HeapInv
      ⟨k (),o.release .allocator⟩ fs { v with holds := false } := by
  have hv : v.holds = true := h.view.follows.1
  have hone : o.held.count .allocator = 1 := by
    have hc := h.view.holds
    rw [hv] at hc
    exact hc
  have hfree : heapGuards fs = 0 := by
    have hc := h.top_count
    rw [hone] at hc
    split at hc
    · omega
    · omega
  refine h.relock rfl ?_ hfree (h.view.follows.2 () _ rfl)
  change List.count _ (o.held.erase .allocator) = 0
  rw [List.count_erase_self,hone]

/-- With interrupts enabled nothing is known about the lock. -/
private theorem setInt {b : Bool} {k : Unit → Code Unit} (h : m.HeapInv ⟨.op (.setInt b) k,o⟩ fs v) :
    ({ m with intEnabled := b }.setStack m.cur (⟨k (),o⟩ :: fs)).HeapInv ⟨k (),o⟩ fs
      { v with off := !b, seen := false } := by
  have hview : Viewed ⟨k (),o⟩ { v with off := !b, seen := false } :=
    ⟨h.view.handler,h.view.holds,h.view.follows.2 () _ rfl⟩
  apply h.advance ?_ ?_ hview ?_ ?_
  · exact h.count
  · rfl
  · exact fun _ => .inl rfl
  · exact fun hb => (Bool.not_eq_eq_eq_not.mp hb)
  · exact fun _ hs => nomatch hs

/-- The other instructions. The lock is free when it was seen free. -/
private theorem quiet {r : i.Result} (h : m.HeapInv ⟨.op i k,o⟩ fs v) (hc : i.locksHeap = false)
    (hs : ∀ n, i ≠ .switchStack n) (hb : ∀ b, i ≠ .setInt b) (hp : m.perform i label = some (r,m')) :
    (m'.setStack m.cur (⟨k r,o.after i r⟩ :: fs)).HeapInv ⟨k r,o.after i r⟩ fs (v.after i r) := by
  have hm := effect_of_perform hp
  have hkeep : (v.after i r).off = v.off ∧
      ((v.after i r).seen = true → v.seen = true ∨ m.locked .allocator = false) := by
    cases i with
    | switchStack n => exact absurd rfl (hs n)
    | setInt b => exact absurd rfl (hb b)
    | isLocked l =>
      obtain rfl := perform_run rfl hp
      cases hp
      cases l with
      | allocator =>
        cases hl : m.locked .allocator with
        | true => exact ⟨rfl,.inl⟩
        | false => exact ⟨rfl,fun _ => .inr rfl⟩
      | _ => exact ⟨rfl,.inl⟩
    | lock l => cases l <;> exact ⟨rfl,.inl⟩
    | unlock l => cases l <;> exact ⟨rfl,.inl⟩
    | _ => exact ⟨rfl,.inl⟩
  apply h.advance (hm.cur hs) hm.stack (viewed_after h.view hc r)
  · intro hoff
    rw [hm.intEnabled hb]
    exact h.off (hkeep.1 ▸ hoff)
  · intro hoff hseen
    rcases hkeep.2 hseen with hseen | hl
    · exact h.seen (hkeep.1 ▸ hoff) hseen
    · have hcount := h.top_count
      rw [hl] at hcount
      exact (Nat.add_eq_zero_iff.mp hcount).2
  · rw [heapGuards_cons,Own.after_count hc,hm.allocator hc]
    exact h.top_count

/-- An instruction of the running frame. The stack that it switches to is not empty. -/
private theorem op {r : i.Result} (h : m.HeapInv ⟨.op i k,o⟩ fs v) (hfs : o.handler = !fs.isEmpty)
    (hne : (m'.setStack m.cur (⟨k r,o.after i r⟩ :: fs)).stack m'.cur ≠ [])
    (hp : m.perform i label = some (r,m')) :
    (m'.setStack m.cur (⟨k r,o.after i r⟩ :: fs)).HeapOk := by
  by_cases hc : i.locksHeap = true
  · cases i with
    | lock l =>
      obtain rfl : l = .allocator := beq_iff_eq.mp hc
      obtain rfl := perform_run rfl hp
      simp only [perform] at hp
      split at hp
      · cases hp
      · rename_i hl
        cases hp
        exact ⟨_,fs,_,h.acquire (Bool.not_eq_true _ ▸ hl)⟩
    | unlock l =>
      obtain rfl : l = .allocator := beq_iff_eq.mp hc
      obtain rfl := perform_run rfl hp
      cases hp
      exact ⟨_,fs,_,h.drop⟩
    | tryLock l =>
      obtain rfl : l = .allocator := beq_iff_eq.mp hc
      exact h.view.follows.1.elim
    | forceUnlock l =>
      obtain rfl : l = .allocator := beq_iff_eq.mp hc
      exact h.view.follows.1.elim
    | _ => cases hc
  · rw [Bool.not_eq_true] at hc
    cases i with
    | switchStack n =>
      obtain rfl := perform_run rfl hp
      cases hp
      refine h.switch hfs ?_ ?_ ?_ hne
      · rfl
      · exact setStack_self _ _ _
      · exact fun c hc => setStack_ne _ hc _
    | setInt b =>
      obtain rfl := perform_run rfl hp
      cases hp
      exact ⟨_,fs,_,h.setInt⟩
    | _ => exact ⟨_,fs,_,h.quiet hc (by simp) (by simp) hp⟩

/-- A handler starts. The frame below may be interrupted, since it is not known to have disabled interrupts. -/
private theorem interrupt (h : m.HeapInv f fs v) (hie : m.intEnabled = true) (irq : Interrupt) :
    ({ m with intEnabled := false }.setStack m.cur (⟨dispatchInterrupt irq,.interrupt⟩ :: f :: fs)).HeapInv
      ⟨dispatchInterrupt irq,.interrupt⟩ (f :: fs) .interrupt where
  stack := setStack_self _ _ _
  view := ⟨rfl,rfl,dispatchInterrupt_heap irq⟩
  off _ := rfl
  seen _ hs := nomatch hs
  dormant := by
    intro f' hf'
    rcases List.mem_cons.mp hf' with rfl | hf'
    · refine ⟨v,h.view,?_⟩
      cases hoff : v.off with
      | false => rfl
      | true =>
        rw [h.off hoff] at hie
        cases hie
    · exact h.dormant f' hf'
  parked := by
    intro c hc
    have hother : c ≠ m.cur := hc
    rw [setStack_ne _ hother]
    exact h.parked c hother
  count := by
    rw [heapGuards_cons,h.count]
    exact Nat.zero_add _

private theorem iret (h : m.HeapInv ⟨.pure (),o⟩ fs v) (hfs : fs ≠ []) :
    ({ m with intEnabled := true }.setStack m.cur fs).HeapOk := by
  obtain ⟨f',fs',rfl⟩ := List.exists_cons_of_ne_nil hfs
  obtain ⟨v',hv',hoff⟩ := h.dormant f' List.mem_cons_self
  have hzero : o.held.count .allocator = 0 := by
    have hc := h.view.holds
    have hv : v.holds = false := h.view.follows
    rw [hv] at hc
    exact hc
  refine ⟨f',fs',v',setStack_self _ _ _,hv',?_,?_,fun f'' hf'' => h.dormant f'' (List.mem_cons_of_mem _ hf''),?_,?_⟩
  · intro hv
    rw [hoff] at hv
    cases hv
  · intro hv
    rw [hoff] at hv
    cases hv
  · intro c hc
    have hother : c ≠ m.cur := hc
    rw [setStack_ne _ hother]
    exact h.parked c hother
  · have hcount := h.count
    rw [heapGuards_cons,hzero,Nat.zero_add] at hcount
    exact hcount

private theorem call {p : Proc} {k : Code Unit} (h : m.HeapInv ⟨.call p k,o⟩ fs v) :
    (m.setStack m.cur (⟨p.body >>= fun _ => k,o⟩ :: fs)).HeapInv ⟨p.body >>= fun _ => k,o⟩ fs v := by
  have hview : Viewed ⟨p.body >>= fun _ => k,o⟩ v :=
    ⟨h.view.handler,h.view.holds,Follows.unfold body_heap h.view.follows⟩
  exact h.advance rfl (fun _ => .inl rfl) hview h.off h.seen h.count

end HeapInv

theorem HeapOk.step (h : m.HeapOk) (hok : m.Ok ⟨false,false⟩) (hstep : m.exec label = some m') : m'.HeapOk := by
  have hok' : m'.Ok ⟨false,false⟩ := hok.step ⟨nofun,nofun⟩ hstep
  obtain ⟨f,fs,v,h⟩ := h
  cases Step.of_exec hstep with
  | interrupt irq hie =>
    rw [h.stack]
    exact ⟨_,_,_,h.interrupt hie irq⟩
  | iret hs hh =>
    obtain ⟨rfl,rfl⟩ := List.cons.inj (h.stack.symm.trans hs)
    have hfs := hok.shape_top h.stack
    apply h.iret
    rintro rfl
    rw [hh] at hfs
    cases hfs
  | call hs =>
    obtain ⟨rfl,rfl⟩ := List.cons.inj (h.stack.symm.trans hs)
    exact ⟨_,_,_,h.call⟩
  | op hs hp =>
    obtain ⟨rfl,rfl⟩ := List.cons.inj (h.stack.symm.trans hs)
    exact h.op (hok.shape_top h.stack) hok'.stack_ne_nil hp

theorem HeapOk.start (idle : Thread) (isrs : Vector → Bool) (time : Nat) (nic : Nic) :
    (start idle isrs time nic).HeapOk := by
  refine ⟨⟨call (.user false []),.user []⟩,[],⟨false,false,false,false⟩,rfl,⟨rfl,rfl,?_⟩,?_,?_,?_,?_,rfl⟩
  · exact ⟨⟨⟨rfl,rfl⟩,List.not_mem_nil⟩,fun _ hf => hf.elim⟩
  · exact fun h => nomatch h
  · exact fun h => nomatch h
  · exact fun _ hf => nomatch hf
  · intro c hc
    cases c with
    | boot => exact absurd rfl hc
    | thread t =>
      change heapGuards (if t = idle then _ else _) = 0 ∧ ∀ f' ∈ (if t = idle then _ else _), _
      split
      · refine ⟨rfl,?_⟩
        intro f' hf'
        rw [List.mem_singleton.mp hf']
        exact dormant_kickoff t
      · exact ⟨rfl,fun _ hf => nomatch hf⟩

theorem HeapOk.of_reachable (hr : system.Reachable m) : m.Ok ⟨false,false⟩ ∧ m.HeapOk := by
  apply hr.invariant (P := fun m => m.Ok ⟨false,false⟩ ∧ m.HeapOk)
  · rintro m hi
    refine ⟨.of_init hi,?_⟩
    obtain ⟨idle,isrs,time,nic,rfl⟩ := hi
    exact HeapOk.start idle isrs time nic
  · rintro m label m' ⟨hok,h⟩ hstep
    exact ⟨hok.step ⟨nofun,nofun⟩ hstep,h.step hok hstep⟩

structure HeapSafe (m : Machine) : Prop where
  /-- A stack is left while the allocator is free. -/
  switch : ∀ n o, m.Next (.switchStack n) o → m.locked .allocator = false
  /-- The guard of the allocator is on the running stack. -/
  running : ∀ c, ∀ f ∈ m.stack c, f.own.holds .allocator = true → c = m.cur
  held : m.locked .allocator = true → ∃ f ∈ m.stack m.cur, f.own.holds .allocator = true
  /-- Code that is no handler never waits for the allocator. -/
  free : ∀ o, m.Next (.lock .allocator) o → o.handler = false → m.locked .allocator = false

end Machine

private theorem holds_allocator {o : Own} : o.holds .allocator = true ↔ o.held.count .allocator ≠ 0 := by
  rw [Own.holds_plain rfl,List.contains_iff_mem,← List.count_pos_iff,Nat.pos_iff_ne_zero]

private theorem heapGuards_eq_zero {fs : List Frame} :
    heapGuards fs = 0 ↔ ∀ f ∈ fs, f.own.held.count .allocator = 0 := by
  induction fs with
  | nil => exact ⟨fun _ _ hf => absurd hf List.not_mem_nil,fun _ => rfl⟩
  | cons f fs ih => rw [heapGuards_cons,Nat.add_eq_zero_iff,ih,List.forall_mem_cons]

/-- For every interleaving of threads that allocate and call the scheduler, with interrupts at every point where
they are enabled: every switch finds the allocator free, only the running stack ever holds it, and code outside
of handlers gets it at once. -/
theorem heap_lock_never_switched {m : Machine} (hr : Machine.system.Reachable m) : m.HeapSafe := by
  obtain ⟨hok,f,fs,v,h⟩ := Machine.HeapOk.of_reachable hr
  constructor
  case switch =>
    rintro n o ⟨k,fs',hs⟩
    obtain ⟨rfl,rfl⟩ := List.cons.inj (h.stack.symm.trans hs)
    exact (h.switch_free (hok.shape_top h.stack)).2.2
  case running =>
    intro c f' hf' hh
    by_contra hc
    exact holds_allocator.mp hh (heapGuards_eq_zero.mp (h.parked c hc).1 f' hf')
  case held =>
    intro hl
    have hcount := h.count
    rw [hl,← h.stack] at hcount
    by_contra hno
    have hzero : heapGuards (m.stack m.cur) = 0 := by
      apply heapGuards_eq_zero.mpr
      intro f' hf'
      by_contra hne
      exact hno ⟨f',hf',holds_allocator.mpr hne⟩
    rw [hzero] at hcount
    cases hcount
  case free =>
    rintro o ⟨k,fs',hs⟩ hh
    obtain ⟨rfl,rfl⟩ := List.cons.inj (h.stack.symm.trans hs)
    have hshape := hok.shape_top h.stack
    rw [hh] at hshape
    have hholds := h.view.holds
    have hv : v.holds = false := h.view.follows.1
    rw [hv] at hholds
    have hcount := h.top_count
    cases fs with
    | cons f fs => cases hshape
    | nil =>
      rw [heapGuards_nil,Nat.add_zero] at hcount
      rw [hholds] at hcount
      cases hl : m.locked .allocator with
      | false => rfl
      | true =>
        rw [hl] at hcount
        cases hcount

/-- The timer comes while a thread allocates, and `yield_cpu` leaves the thread alone. -/
def allocatingRun : List Label := Machine.script
  [(.run,0),(.act (.ready ⟨1⟩),6),(.act .schedule,9),(.act .alloc,1),(.interrupt .pit,8)]

/-- The handler has the scheduler while the interrupted thread has the allocator. -/
def Machine.handlerSeesHeap (m : Machine) : Bool :=
  match m.stack m.cur with
  | f :: _ => f.own.handler && f.own.sched == .live && m.locked .allocator
  | _ => false

theorem heap_lock_never_switched_sample :
    ∃ m, Machine.system.Reachable m ∧ m.handlerSeesHeap = true ∧ m.HeapSafe := by
  have hrun : ((Machine.start ⟨0⟩ (fun _ => true) 0 ⟨0,0⟩).execAll (fun _ _ => true) allocatingRun).any
      Machine.handlerSeesHeap = true := by decide +kernel
  obtain ⟨m,hm,hl⟩ := Machine.reachable_of_execAll hrun
  exact ⟨m,hm.of_restrict,hl,heap_lock_never_switched hm.of_restrict⟩

end HeineOS.Kernel
