import HeineOS.Device.Pit
import HeineOS.Thread.Progress

/-! The timer interrupt over the scheduler: threads that never yield still take turns. -/
namespace HeineOS.Scheduler.Preemption
open Lib Pit

/-- The system time and the scheduler, with the lock of its state. -/
structure State where
  time : Nat
  locked : Bool
  threads : Threads

/-- A timer interrupt, which may find the allocator locked, or a part of a call of the running thread: it takes the lock,
and it gives the lock back behind an operation or without one, as `get_active_tid` does. -/
inductive Label where
  | tick (allocatorLocked : Bool)
  | lock
  | unlock
  | call (op : Op)

def Label.isTick : Label → Bool
  | .tick _ => true
  | _ => false

/-- Creating a thread only counts its id; all other operations are done under the lock. -/
def takesLock : Op → Bool
  | .create => false
  | _ => true

/-- The scheduler's operations that a timer interrupt at the time `time` does. Its `yield_cpu` gives up when the lock is
taken. -/
def tickOps (time : Nat) (locked allocatorLocked : Bool) : List Op :=
  if (trigger TIMER_INTERRUPT_INTERVAL_MS time).yields then
    if locked then [] else [.yieldCpu allocatorLocked]
  else []

inductive Step : State → Label → State → Prop where
  | tick {s : State} {allocatorLocked : Bool} {threads : Threads}
      (h : System.Run Threads.system s.threads (tickOps s.time s.locked allocatorLocked) threads) :
      Step s (.tick allocatorLocked) ⟨(trigger TIMER_INTERRUPT_INTERVAL_MS s.time).time,s.locked,threads⟩
  | lock {s : State} (h : s.locked = false) : Step s .lock { s with locked := true }
  | unlock {s : State} (h : s.locked = true) : Step s .unlock { s with locked := false }
  | call {s : State} {op : Op} {threads : Threads} (hlock : s.locked = takesLock op)
      (h : Threads.system.step s.threads op threads) : Step s (.call op) ⟨s.time,false,threads⟩

def system : System State Label where
  init s := s.time = 0 ∧ s.locked = false ∧ Threads.system.init s.threads
  step := Step

/-- A timer interrupt that yields finds the scheduler unlocked and initialised and the allocator unlocked, and every call
of `yield_cpu` finds the last two; the thread is not killed while it waits. -/
def Fair (x : Thread) (s : State) : Label → Prop
  | .tick allocatorLocked => (trigger TIMER_INTERRUPT_INTERVAL_MS s.time).yields = true →
      s.locked = false ∧ s.threads.queues.Yields (.yieldCpu allocatorLocked)
  | .lock | .unlock => True
  | .call op => s.threads.queues.Yields op ∧ s.threads.queues.Spares x op

/-- The timer interrupts until the next one that yields. -/
def due (time : Nat) : Nat := (10 - time % 10) % 10

private theorem due_next {time : Nat} (h : time < 2^64) :
    let time' := (trigger TIMER_INTERRUPT_INTERVAL_MS time).time
    time' < 2^64 ∧ ((trigger TIMER_INTERRUPT_INTERVAL_MS time).yields = true ∧ due time' ≤ 9 ∨
      (trigger TIMER_INTERRUPT_INTERVAL_MS time).yields = false ∧ due time' + 1 ≤ due time) := by
  dsimp only
  rw [trigger,TIMER_INTERRUPT_INTERVAL_MS]
  refine ⟨Nat.mod_lt _ (by decide),?_⟩
  by_cases h10 : time % 10 = 0
  · refine .inl ⟨decide_eq_true h10,?_⟩
    rw [due]
    omega
  · refine .inr ⟨decide_eq_false h10,?_⟩
    rw [due,due]
    by_cases hlast : time + 1 = 2^64
    · rw [hlast,Nat.mod_self]
      dsimp only
      omega
    · rw [Nat.mod_eq_of_lt (show time + 1 < 2^64 by omega)]
      dsimp only
      omega

structure Inv (s : State) : Prop where
  threads : Threads.Inv s.threads
  time : s.time < 2^64

variable {s s' : State} {l : Label} {x : Thread} {k : Nat}

theorem inv_step (hi : Inv s) (hs : Step s l s') : Inv s' := by
  cases hs with
  | tick h => exact ⟨h.invariant (fun _ _ _ => Threads.inv_step) hi.threads,(due_next hi.time).1⟩
  | lock h | unlock h => exact ⟨hi.threads,hi.time⟩
  | call hlock h => exact ⟨Threads.inv_step hi.threads h,hi.time⟩

theorem inv_reachable (h : system.Reachable s) : Inv s := by
  apply h.invariant
  · rintro s ⟨htime,-,hinit⟩
    exact ⟨Threads.inv_init hinit,by rw [htime]; decide⟩
  · intro s l s' hi hs
    exact inv_step hi hs

/-- One call brings the thread at index `k` closer or leaves it where it is, or makes it active. -/
private theorem call_progress {t t' : Threads} {op : Op} (ht : Threads.Inv t) (hs : Threads.system.step t op t')
    (hy : t.queues.Yields op) (hspare : t.queues.Spares x op) (hx : t.queues.ready[k]? = some x) :
    t'.queues.active = some x ∨ ∃ j, j ≤ k ∧ t'.queues.ready[j]? = some x := by
  have hserved := (Threads.step_move hs).served ht.ready_nodup hy hspare hx
  cases hsw : t.queues.isSwitch op with
  | true =>
    rcases hserved.switch hsw with ⟨-,hact⟩ | ⟨j,rfl,hj⟩
    · exact .inl hact
    · exact .inr ⟨j,Nat.le_succ j,hj⟩
  | false => exact .inr (hserved.wait hsw)

/-- A timer interrupt that yields lets the first thread run and brings the others closer. -/
private theorem yield_progress {t t' : Threads} {b : Bool} (ht : Threads.Inv t)
    (hs : Threads.system.step t (.yieldCpu b) t') (hy : t.queues.Yields (.yieldCpu b))
    (hx : t.queues.ready[k]? = some x) :
    t'.queues.active = some x ∨ ∃ j, k = j + 1 ∧ t'.queues.ready[j]? = some x := by
  have hserved := (Threads.step_move hs).served ht.ready_nodup hy (fun h => by cases h) hx
  have hne : t.queues.ready.isEmpty = false := by
    rw [List.isEmpty_eq_false_iff]
    exact List.ne_nil_of_mem (List.mem_of_getElem? hx)
  rcases hserved.switch (by rw [Queues.isSwitch,hne]; rfl) with ⟨-,hact⟩ | hnext
  · exact .inl hact
  · exact .inr hnext

/-- The first state of a run in which a thread is active, and the timer interrupts until then. -/
def ActiveWithin (x : Thread) (s : State) (ls : List Label) (n : Nat) : Prop :=
  ∃ ls₁ ls₂ s₁, ls = ls₁ ++ ls₂ ∧ System.Run (system.restrict (Fair x)) s ls₁ s₁ ∧
    s₁.threads.queues.active = some x ∧ ls₁.countP Label.isTick ≤ n

private theorem ActiveWithin.cons {ls : List Label} {n n' : Nat} (hs : (system.restrict (Fair x)).step s l s')
    (h : ActiveWithin x s' ls n) (hn : n + (if l.isTick then 1 else 0) ≤ n') : ActiveWithin x s (l :: ls) n' := by
  obtain ⟨ls₁,ls₂,s₁,rfl,hrun,hact,hcount⟩ := h
  refine ⟨l :: ls₁,ls₂,s₁,rfl,.cons hs hrun,hact,?_⟩
  rw [List.countP_cons]
  omega

private theorem ActiveWithin.now {ls : List Label} {n : Nat} (hs : (system.restrict (Fair x)).step s l s')
    (hact : s'.threads.queues.active = some x) (hn : (if l.isTick then 1 else 0) ≤ n) :
    ActiveWithin x s (l :: ls) n :=
  ActiveWithin.cons hs ⟨[],ls,s',rfl,.nil _,hact,Nat.le_refl 0⟩ (by omega)

private theorem tick_yields {t t' : Threads} {time : Nat} {b : Bool}
    (hyields : (trigger TIMER_INTERRUPT_INTERVAL_MS time).yields = true)
    (h : System.Run Threads.system t (tickOps time false b) t') : Threads.system.step t (.yieldCpu b) t' := by
  rw [tickOps,if_pos hyields] at h
  cases h with
  | cons hstep hnil =>
    cases hnil
    exact hstep

private theorem tick_passes {t t' : Threads} {time : Nat} {locked b : Bool}
    (hyields : (trigger TIMER_INTERRUPT_INTERVAL_MS time).yields = false)
    (h : System.Run Threads.system t (tickOps time locked b) t') : t' = t := by
  rw [tickOps,hyields] at h
  cases h
  rfl

/-- Enough timer interrupts make the thread at index `k` active. -/
private theorem turn_in_time {ls : List Label} (hi : Inv s) (hrun : System.Run (system.restrict (Fair x)) s ls s')
    (hx : s.threads.queues.ready[k]? = some x) {n : Nat} (hn : due s.time + 10 * k + 1 ≤ n)
    (hticks : n ≤ ls.countP Label.isTick) : ActiveWithin x s ls n := by
  induction hrun generalizing k n with
  | nil s =>
    rw [List.countP_nil] at hticks
    omega
  | @cons s s₁ s' l ls hs hrun ih =>
    rw [List.countP_cons] at hticks
    have hi₁ := inv_step hi hs.2
    have hfair := hs.1
    cases hs.2 with
    | @tick b threads h =>
      obtain ⟨-,hcases⟩ := due_next hi.time
      simp only [Label.isTick, if_true] at hticks
      rcases hcases with ⟨hyields,hdue⟩ | ⟨hyields,hdue⟩
      · obtain ⟨hfree,hyield⟩ := hfair hyields
        rw [hfree] at h
        rcases yield_progress hi.threads (tick_yields hyields h) hyield hx with hact | ⟨j,rfl,hj⟩
        · apply ActiveWithin.now hs hact
          simp only [Label.isTick, if_true]
          omega
        · apply ActiveWithin.cons hs (ih hi₁ hj (n := n - 1) (by dsimp only; omega) (by omega))
          simp only [Label.isTick, if_true]
          omega
      · obtain rfl := tick_passes hyields h
        apply ActiveWithin.cons hs (ih hi₁ hx (n := n - 1) (by dsimp only; omega) (by omega))
        simp only [Label.isTick, if_true]
        omega
    | lock h | unlock h =>
      simp only [Label.isTick, Bool.false_eq_true, if_false] at hticks
      exact .cons hs (ih hi₁ hx hn hticks) (Nat.le_refl n)
    | call hlock h =>
      simp only [Label.isTick, Bool.false_eq_true, if_false] at hticks
      rcases call_progress hi.threads h hfair.1 hfair.2 hx with hact | ⟨j,hle,hj⟩
      · exact .now hs hact (Nat.zero_le _)
      · exact .cons hs (ih hi₁ hj (by dsimp only; omega) hticks) (Nat.le_refl n)

/-- From every reachable state, the thread at index `k` of the ready queue becomes active within `10 * (k + 1)` timer
interrupts, that is as many milliseconds, whatever the threads before it call or do not call, if it is not killed while
it waits and every tenth interrupt, which yields, finds the scheduler initialised and its lock and the allocator free. -/
theorem preempted_in_time {ls : List Label} (hs : system.Reachable s)
    (hx : s.threads.queues.ready[k]? = some x) (hrun : System.Run (system.restrict (Fair x)) s ls s')
    (hticks : 10 * (k + 1) ≤ ls.countP Label.isTick) :
    ∃ ls₁ ls₂ s₁, ls = ls₁ ++ ls₂ ∧ System.Run (system.restrict (Fair x)) s ls₁ s₁ ∧
      s₁.threads.queues.active = some x ∧ ls₁.countP Label.isTick ≤ 10 * (k + 1) := by
  have hdue : due s.time ≤ 9 := Nat.le_of_lt_succ (Nat.mod_lt _ (by decide))
  exact turn_in_time (inv_reachable hs) hrun hx (by omega) hticks

private theorem ticks_run (n : Nat) {a : Thread} (ha : s.threads.state.activeThread = some a)
    (hinit : s.threads.state.initialized = true) (hfree : s.locked = false) :
    ∃ s', System.Run (system.restrict (Fair x)) s (List.replicate n (.tick false)) s' := by
  induction n generalizing s a with
  | zero => exact ⟨s,.nil s⟩
  | succ n ih =>
    have hfair : Fair x s (.tick false) := by
      intro _
      refine ⟨hfree,?_⟩
      rintro b ⟨⟩
      exact ⟨rfl,hinit⟩
    cases hyields : (trigger TIMER_INTERRUPT_INTERVAL_MS s.time).yields with
    | true =>
      obtain ⟨a',state,hexec,ha',hinit',-⟩ := Threads.yield_rotates ha hinit
      have hrun : System.Run Threads.system s.threads (tickOps s.time s.locked false)
          { s.threads with state := state } := by
        rw [tickOps,if_pos hyields,hfree]
        exact .cons ⟨trivial,hexec⟩ (.nil _)
      obtain ⟨s',hs'⟩ := @ih ⟨_,s.locked,{ s.threads with state := state }⟩ a' ha' hinit' hfree
      exact ⟨s',.cons ⟨hfair,.tick hrun⟩ hs'⟩
    | false =>
      have hrun : System.Run Threads.system s.threads (tickOps s.time s.locked false) s.threads := by
        rw [tickOps,hyields]
        exact .nil _
      obtain ⟨s',hs'⟩ := @ih ⟨(trigger TIMER_INTERRUPT_INTERVAL_MS s.time).time,s.locked,s.threads⟩ a ha hinit hfree
      exact ⟨s',.cons ⟨hfair,.tick hrun⟩ hs'⟩

private theorem called {threads : Threads} (h : system.Reachable s) (hfree : s.locked = false) (op : Op)
    (hop : s.threads.Admissible op) (hexec : s.threads.exec op = .ok threads) :
    system.Reachable ⟨s.time,false,threads⟩ := by
  cases hlock : takesLock op with
  | false => exact h.step (.call (hfree.trans hlock.symm) ⟨hop,hexec⟩)
  | true => exact (h.step (.lock hfree)).step (.call hlock.symm ⟨hop,hexec⟩)

/-- Thread 1 waits behind the idle thread, which never yields; the first timer interrupt falls into a section of the
idle thread under the lock of the scheduler. -/
theorem preempted_in_time_sample : ∃ s s₁ : State, ∃ ls, s.time = 1 ∧ s.threads.queues.ready = [⟨1⟩] ∧
    System.Run (system.restrict (Fair ⟨1⟩)) s ls s₁ ∧ s₁.threads.queues.active = some ⟨1⟩ ∧
      ls.countP Label.isTick ≤ 10 := by
  have hcreate : (1 : Nat) + 1 < 2^64 := by decide
  have h₀ : system.Reachable ⟨0,false,⟨Scheduler.new ⟨0⟩,1,[],[⟨0⟩],[]⟩⟩ := .of_init ⟨rfl,rfl,0,by decide,rfl⟩
  have h₁ := called h₀ rfl .schedule trivial rfl
  let idle : Threads := ⟨⟨some ⟨0⟩,.new,.new,true⟩,1,[],[⟨0⟩],[]⟩
  have hyield : System.Run Threads.system idle (tickOps 0 false false) idle := .cons ⟨trivial,rfl⟩ (.nil _)
  have h₂ : system.Reachable ⟨1,false,idle⟩ := h₁.step (.tick hyield)
  have h₃ := called h₂ rfl .create hcreate rfl
  have h₄ := called h₃ rfl (.ready ⟨1⟩) (List.mem_singleton.mpr rfl) rfl
  obtain ⟨s',hrun⟩ := @ticks_run ⟨2,false,Threads.sampleReady⟩ ⟨1⟩ 9 ⟨0⟩ rfl rfl rfl
  have hnot : (trigger TIMER_INTERRUPT_INTERVAL_MS 1).yields = true → False := by decide
  have hrun' : System.Run (system.restrict (Fair ⟨1⟩)) ⟨1,false,Threads.sampleReady⟩
      (.lock :: .tick false :: .unlock :: List.replicate 9 (.tick false)) s' :=
    .cons ⟨trivial,.lock rfl⟩ (.cons ⟨fun h => (hnot h).elim,.tick (.nil _)⟩ (.cons ⟨trivial,.unlock rfl⟩ hrun))
  obtain ⟨ls₁,ls₂,s₁,-,hrun₁,hact,hcount⟩ := @preempted_in_time _ _ ⟨1⟩ 0 _ h₄ rfl hrun' (by decide)
  exact ⟨_,s₁,ls₁,rfl,rfl,hrun₁,hact,hcount⟩

end HeineOS.Scheduler.Preemption
