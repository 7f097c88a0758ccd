import HeineOS.Library.Queue
import HeineOS.Lib.System
import Mathlib.Tactic.Ring

/-! The scheduler between operations: what each method does to `SchedulerState` once it has the
lock. The boxes that leave the scheduler are returned, since they are dropped. -/
namespace HeineOS

/-- The scheduler reads nothing of a thread but its id. -/
structure Thread where
  id : Nat
  deriving DecidableEq, Repr

/-- The id and the new value of `THREAD_ID_COUNTER`. -/
def nextId (counter : Nat) : Nat × Nat := (counter,(counter + 1) % 2^64)

namespace Scheduler

/-- The `unwrap` calls of the scheduler. -/
inductive Panic where
  | noActiveThread
  | emptyReadyQueue
  deriving DecidableEq, Repr

structure SchedulerState where
  activeThread : Option Thread
  readyQueue : LinkedQueue Thread
  terminatedThreads : LinkedQueue Thread
  initialized : Bool
  deriving DecidableEq, Repr

def new (idle : Thread) : SchedulerState := ⟨some idle,.new,.new,false⟩

/-- The thread to start on. -/
def schedule (s : SchedulerState) : Except Panic (Thread × SchedulerState) :=
  let s := { s with initialized := true }
  match s.activeThread with
  | none => .error .noActiveThread
  | some active => .ok (active,s)

def ready (s : SchedulerState) (thread : Thread) : SchedulerState :=
  { s with readyQueue := s.readyQueue.enqueue thread }

/-- The arguments of `Thread::switch` and the state. -/
def exit (s : SchedulerState) : Except Panic ((Thread × Thread) × SchedulerState) :=
  match s.activeThread with
  | none => .error .noActiveThread
  | some current =>
    match s.readyQueue.dequeue with
    | (none,_) => .error .emptyReadyQueue
    | (some next,readyQueue) =>
      .ok ((current,next),{ s with
        activeThread := some next
        readyQueue
        terminatedThreads := s.terminatedThreads.enqueue current })

/-- The loop of `cleanup_terminated_threads`, over the chain of the queue. -/
def cleanupLoop : Link Thread → List Thread × Link Thread
  | .none => ([],.none)
  | .node thread next =>
    let (dropped,rest) := cleanupLoop next
    (thread :: dropped,rest)

/-- The dropped threads and the state. -/
def cleanupTerminatedThreads (s : SchedulerState) : List Thread × SchedulerState :=
  let (dropped,head) := cleanupLoop s.terminatedThreads.head
  (dropped,{ s with terminatedThreads := ⟨head⟩ })

/-- The arguments of `Thread::switch`, if it is reached. -/
def yieldCpu (s : SchedulerState) (allocatorLocked : Bool) :
    Except Panic (Option (Thread × Thread) × SchedulerState) :=
  if !s.initialized then .ok (none,s)
  else if allocatorLocked then .ok (none,s)
  else
    match s.readyQueue.dequeue with
    | (none,readyQueue) => .ok (none,{ s with readyQueue })
    | (some next,readyQueue) =>
      match s.activeThread with
      | none => .error .noActiveThread
      | some current =>
        .ok (some (current,next),{ s with
          activeThread := some next
          readyQueue := readyQueue.enqueue current })

/-- The dropped thread and the state. -/
def kill (s : SchedulerState) (id : Nat) : Option Thread × SchedulerState :=
  let (dropped,readyQueue) := s.readyQueue.remove fun thread => thread.id == id
  (dropped,{ s with readyQueue })

namespace SchedulerState

/-- The queues read as lists. -/
def ready (s : SchedulerState) : List Thread := s.readyQueue.toList
def terminated (s : SchedulerState) : List Thread := s.terminatedThreads.toList

end SchedulerState

variable (s : SchedulerState)

@[simp] theorem ready_ready (thread : Thread) : (ready s thread).ready = s.ready ++ [thread] :=
  LinkedQueue.toList_enqueue _ _

theorem schedule_cases :
    (schedule s = .error .noActiveThread ∧ s.activeThread = none) ∨
    ∃ active, s.activeThread = some active ∧ schedule s = .ok (active,{ s with initialized := true }) := by
  unfold schedule
  cases s.activeThread with
  | none => exact .inl ⟨rfl,rfl⟩
  | some active => exact .inr ⟨active,rfl,rfl⟩

/-- `exit` panics without an active or a ready thread; else the first ready thread becomes active
and the active one is terminated. -/
theorem exit_cases :
    (exit s = .error .noActiveThread ∧ s.activeThread = none) ∨
    (exit s = .error .emptyReadyQueue ∧ s.ready = []) ∨
    ∃ current next s', exit s = .ok ((current,next),s') ∧ s.activeThread = some current ∧
      s.ready = next :: s'.ready ∧ s'.activeThread = some next ∧ s'.terminated = s.terminated ++ [current] ∧
      s'.initialized = s.initialized := by
  obtain ⟨activeThread,readyQueue,terminatedThreads,initialized⟩ := s
  cases activeThread with
  | none => exact .inl ⟨rfl,rfl⟩
  | some current =>
    rcases readyQueue.dequeue_cases with ⟨hd,hl⟩ | ⟨next,readyQueue',hd,hl⟩
    · exact .inr (.inl ⟨by simp only [exit, hd],hl⟩)
    · refine .inr (.inr ⟨current,next,⟨some next,readyQueue',terminatedThreads.enqueue current,initialized⟩,
        by simp only [exit, hd],rfl,hl,rfl,?_,rfl⟩)
      exact LinkedQueue.toList_enqueue _ _

/-- `yield_cpu` does nothing when it may not switch or has nothing to switch to; else the active
thread goes to the end of the queue and the first ready thread becomes active. -/
theorem yieldCpu_cases (allocatorLocked : Bool) :
    (yieldCpu s allocatorLocked = .ok (none,s) ∧
      (s.initialized = false ∨ allocatorLocked = true ∨ s.ready = [])) ∨
    (yieldCpu s allocatorLocked = .error .noActiveThread ∧ s.activeThread = none) ∨
    ∃ current next rest s', yieldCpu s allocatorLocked = .ok (some (current,next),s') ∧
      s.initialized = true ∧ allocatorLocked = false ∧
      s.activeThread = some current ∧ s.ready = next :: rest ∧ s'.activeThread = some next ∧
      s'.ready = rest ++ [current] ∧ s'.terminatedThreads = s.terminatedThreads ∧
      s'.initialized = s.initialized := by
  obtain ⟨activeThread,readyQueue,terminatedThreads,initialized⟩ := s
  cases initialized with
  | false => exact .inl ⟨rfl,.inl rfl⟩
  | true =>
    cases allocatorLocked with
    | true => exact .inl ⟨rfl,.inr (.inl rfl)⟩
    | false =>
      rcases readyQueue.dequeue_cases with ⟨hd,hl⟩ | ⟨next,readyQueue',hd,hl⟩
      · exact .inl ⟨by simp [yieldCpu, hd],.inr (.inr hl)⟩
      · cases activeThread with
        | none => exact .inr (.inl ⟨by simp [yieldCpu, hd],rfl⟩)
        | some current =>
          refine .inr (.inr ⟨current,next,readyQueue'.toList,
            ⟨some next,readyQueue'.enqueue current,terminatedThreads,true⟩,by simp [yieldCpu, hd],rfl,rfl,rfl,hl,
            rfl,?_,rfl,rfl⟩)
          exact LinkedQueue.toList_enqueue _ _

/-- `kill` drops the first ready thread with the id, if there is one. -/
theorem kill_cases (id : Nat) :
    (kill s id = (none,s) ∧ ∀ thread ∈ s.ready, thread.id ≠ id) ∨
    ∃ pre victim post s', kill s id = (some victim,s') ∧ victim.id = id ∧
      (∀ thread ∈ pre, thread.id ≠ id) ∧ s.ready = pre ++ victim :: post ∧ s'.ready = pre ++ post ∧
      s'.activeThread = s.activeThread ∧ s'.terminatedThreads = s.terminatedThreads ∧
      s'.initialized = s.initialized := by
  unfold kill
  rcases s.readyQueue.remove_cases (fun thread => thread.id == id) with
    ⟨hr,hall⟩ | ⟨pre,victim,post,readyQueue,hr,hl,hl',hv,hpre⟩
  · exact .inl ⟨by rw [hr],fun thread hm => by simpa using hall thread hm⟩
  · refine .inr ⟨pre,victim,post,{ s with readyQueue },by rw [hr],by simpa using hv,?_,hl,hl',rfl,rfl,rfl⟩
    exact fun thread hm => by simpa using hpre thread hm

private theorem cleanupLoop_eq (link : Link Thread) : cleanupLoop link = (link.toList,.none) := by
  induction link with
  | none => rfl
  | node thread next ih => rw [cleanupLoop,ih]; rfl

theorem cleanupTerminatedThreads_eq :
    cleanupTerminatedThreads s = (s.terminated,{ s with terminatedThreads := .new }) := by
  rw [cleanupTerminatedThreads,cleanupLoop_eq]
  rfl

end Scheduler

end HeineOS
