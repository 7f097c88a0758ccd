import HeineOS.Kernel.Machine

/-! Code that runs undisturbed, up to its end or to the change of stacks. With a free scheduler the
operations then do to the state what the scheduler model says, and the machine can take these steps
one after the other. -/
namespace HeineOS.Kernel
open Lib Scheduler

/-- Where undisturbed code gets to. A panic, a taken lock and exhausted fuel are stuck. -/
inductive Outcome (α : Type) where
  | done (a : α) (m : Machine)
  | switched (next : Thread) (m : Machine)
  | stuck

namespace Machine

/-- The machine behind the drop of some threads, the last one first. -/
def drop (m : Machine) (ts : List Thread) : Machine := { m with dropped := ts ++ m.dropped }

/-- The label of the next step, where `choice` decides what is open. -/
def label (choice : Machine → Bool) (m : Machine) : Instr → Label
  | .flip => .flip (choice m)
  | _ => .run

section
variable {α : Type} (choice : Machine → Bool)

def aloneWith (calls : Proc → Code α → Machine → Outcome α) : Code α → Machine → Outcome α
  | .pure a, m => .done a m
  | .call p k, m => calls p k m
  | .op (.switchStack next) _, m => .switched next m
  | .op i k, m =>
    match m.perform i (label choice m i) with
    | none => .stuck
    | some (r,m') => aloneWith calls (k r) m'

/-- Run code on its own. The fuel bounds the depth of calls. -/
def alone : Nat → Code α → Machine → Outcome α
  | 0 => aloneWith choice fun _ _ _ => .stuck
  | fuel + 1 => aloneWith choice fun p k => alone fuel (p.body >>= fun _ => k)

end

section
variable {α : Type} {choice : Machine → Bool} {fuel : Nat} {m m' : Machine}

@[simp] theorem alone_pure (a : α) : alone choice fuel (.pure a) m = .done a m := by
  cases fuel <;> rfl

theorem alone_switchStack {next : Thread} {k : Unit → Code α} :
    alone choice fuel (.op (.switchStack next) k) m = .switched next m := by
  cases fuel <;> rfl

theorem alone_call {p : Proc} {k : Code α} :
    alone choice (fuel + 1) (.call p k) m = alone choice fuel (p.body >>= fun _ => k) m := rfl

theorem alone_op {i : Instr} {k : i.Result → Code α} (hi : ∀ next, i ≠ .switchStack next) :
    alone choice fuel (.op i k) m =
      match m.perform i (label choice m i) with
      | none => .stuck
      | some (r,m') => alone choice fuel (k r) m' := by
  cases fuel with
  | zero =>
    rw [alone,aloneWith]
    exact fun next _ h _ => hi next h
  | succ fuel =>
    rw [alone,aloneWith]
    exact fun next _ h _ => hi next h

theorem alone_perform {i : Instr} {k : i.Result → Code α} {r : i.Result} (hi : ∀ next, i ≠ .switchStack next)
    (hp : m.perform i (label choice m i) = some (r,m')) :
    alone choice fuel (.op i k) m = alone choice fuel (k r) m' := by
  rw [alone_op hi,hp]

theorem alone_lock {l : Lock} {k : Unit → Code α} (h : m.locked l = false) :
    alone choice fuel (lock l >>= k) m = alone choice fuel (k ()) (m.setLock l true) :=
  alone_perform (i := .lock l) nofun (by simp [label, perform_lock, h])

theorem alone_unlock {l : Lock} {k : Unit → Code α} :
    alone choice fuel (unlock l >>= k) m = alone choice fuel (k ()) (m.setLock l false) :=
  alone_perform (i := .unlock l) nofun rfl

/-- The allocator is taken and left free again. -/
theorem alone_alloc {k : Unit → Code α} (h : m.locked .allocator = false) :
    alone choice fuel (alloc >>= k) m = alone choice fuel (k ()) m := by
  change alone choice fuel (lock .allocator >>= fun _ => unlock .allocator >>= k) m = _
  rw [alone_lock h,alone_unlock,setLock_setLock,setLock_eq_self m h]

theorem alone_panic : alone choice fuel (panic : Code α) m = .stuck := by
  change alone choice fuel (.op (.lock .com1) fun _ => .op (.unlock .com1) fun _ => .op .halt _) m = _
  cases h : m.locked .com1 with
  | true => simp [alone_op, label, perform, h]
  | false => simp [alone_op, label, perform, h]

theorem alone_freeNode {t : Thread} {k : Option Thread → Code α} (h : m.locked .allocator = false) :
    alone choice fuel (freeNode (some t) >>= k) m = alone choice fuel (k (some t)) m := alone_alloc h

theorem alone_threadSwitch {next : Thread} {k : Unit → Code α} :
    alone choice fuel (threadSwitch next >>= k) m = .switched next (m.setRsp0 next) := by
  change alone choice fuel (.op .isIntEnabled fun _ => .op (.setRsp0 next) fun _ => .op (.switchStack next) _) m = _
  rw [alone_perform (by simp) rfl,alone_perform (by simp) rfl]
  exact alone_switchStack

theorem alone_dropBox {t : Thread} {k : Unit → Code α} (h : m.locked .allocator = false) :
    alone choice fuel (dropBox t >>= k) m = alone choice fuel (k ()) (m.drop [t]) := by
  have hd : (m.drop [t]).locked .allocator = false := h
  change alone choice fuel (.op (.dropThread t) fun _ => alloc >>= fun _ => .op .flip fun b =>
    (if b then alloc >>= fun _ => alloc else alloc) >>= k) m = _
  rw [alone_op (by simp)]
  change alone choice fuel (alloc >>= _) (m.drop [t]) = _
  rw [alone_alloc hd,alone_op (by simp)]
  simp only [label, perform]
  split
  · exact (alone_alloc hd).trans (alone_alloc hd)
  · exact alone_alloc hd

end

/-! The operations of the scheduler. -/
section
variable {choice : Machine → Bool} {fuel : Nat} {m : Machine}

private theorem allocator_free (ha : m.locked .allocator = false) (s : SchedulerState) :
    ((m.setLock .scheduler true).setState s).locked .allocator = false :=
  (setLock_ne m (l := .scheduler) (by decide) true).trans ha

/-- The end of a critical section of the scheduler. -/
private theorem alone_leave (hs : m.locked .scheduler = false) (s : SchedulerState) :
    alone choice fuel (unlock .scheduler) ((m.setLock .scheduler true).setState s) = .done () (m.setState s) := by
  have hm : ((m.setLock .scheduler true).setState s).setLock .scheduler false = m.setState s := by
    change ((m.setLock .scheduler true).setLock .scheduler false).setState s = _
    rw [setLock_setLock,setLock_eq_self m hs]
  rw [← hm]
  exact (alone_unlock (k := .pure)).trans (alone_pure _)

theorem alone_ready {t : Thread} (hs : m.locked .scheduler = false) (ha : m.locked .allocator = false)
    (ht : m.stack (.thread t) = []) :
    alone choice fuel (ready t) m =
      .done () ((m.setState (Scheduler.ready m.state t)).setStack (.thread t) [⟨kickoff t,.fresh⟩]) := by
  change alone choice fuel (lock .scheduler >>= fun _ => alloc >>= fun _ => .op (.enqueueNew t) fun _ =>
    unlock .scheduler) m = _
  rw [alone_lock hs,alone_alloc ((setLock_ne m (by decide) true).trans ha),alone_op (by simp)]
  simp only [label, perform]
  rw [show (m.setLock .scheduler true).stack (.thread t) = [] from ht]
  simp only [List.isEmpty_nil, if_true]
  exact alone_leave (m := m.setStack (.thread t) [⟨kickoff t,.fresh⟩]) hs _

theorem alone_exit (hs : m.locked .scheduler = false) (ha : m.locked .allocator = false) :
    alone choice fuel exit m =
      match Scheduler.exit m.state with
      | .error _ => .stuck
      | .ok ((_,next),s) => .switched next (((m.setLock .scheduler true).setState s).setRsp0 next) := by
  rw [exit,alone_lock hs,Kernel.perform,Program.perform_bind,alone_op (by simp)]
  simp only [label, perform, Scheduler.exit, setLock_state]
  cases m.state.activeThread with
  | none => exact alone_panic
  | some current =>
    dsimp only
    rw [readyDequeue,Program.bind_assoc,Kernel.perform,Program.perform_bind,alone_op (by simp)]
    simp only [label, perform, setState_state, setState_setState]
    rcases m.state.readyQueue.dequeue_cases with ⟨hd,_⟩ | ⟨next,readyQueue,hd,_⟩
    · rw [hd]
      exact alone_panic
    · rw [hd]
      dsimp only
      rw [alone_freeNode (allocator_free ha _)]
      dsimp only
      rw [Kernel.perform,Program.perform_bind,alone_op (by simp)]
      simp only [label, perform, setState_state, setState_setState]
      rw [terminatedEnqueue,Program.bind_assoc,alone_alloc (allocator_free ha _),Kernel.perform,Program.perform_bind,
        alone_op (by simp)]
      exact alone_threadSwitch

theorem alone_yieldCpu (hs : m.locked .scheduler = false) :
    alone choice fuel yieldCpu m =
      match Scheduler.yieldCpu m.state (m.locked .allocator) with
      | .error _ => .stuck
      | .ok (none,s) => .done () (m.setState s)
      | .ok (some (_,next),s) => .switched next (((m.setLock .scheduler true).setState s).setRsp0 next) := by
  have hl : (m.setLock .scheduler true).locked .allocator = m.locked .allocator := setLock_ne m (by decide) true
  rw [yieldCpu,tryLock,Kernel.perform,Program.perform_bind,alone_op (by simp)]
  simp only [label, perform, hs, Bool.not_false, if_true]
  rw [Kernel.perform,Program.perform_bind,alone_op (by simp)]
  simp only [label, perform, setLock_state, Scheduler.yieldCpu]
  cases hi : m.state.initialized with
  | false => exact alone_leave hs m.state
  | true =>
    simp only [if_true, Bool.not_true, Bool.false_eq_true, if_false]
    rw [Kernel.perform,Program.perform_bind,alone_op (by simp)]
    simp only [label, perform, hl]
    cases ha : m.locked .allocator with
    | true => exact alone_leave hs m.state
    | false =>
      simp only [Bool.false_eq_true, if_false]
      rw [readyDequeue,Program.bind_assoc,Kernel.perform,Program.perform_bind,alone_op (by simp)]
      simp only [label, perform, setLock_state, hi]
      rcases m.state.readyQueue.dequeue_cases with ⟨hd,_⟩ | ⟨next,readyQueue,hd,_⟩
      · rw [hd]
        exact alone_leave hs _
      · rw [hd]
        dsimp only
        rw [alone_freeNode (allocator_free ha _)]
        dsimp only
        rw [Kernel.perform,Program.perform_bind,alone_op (by simp)]
        simp only [label, perform, setState_state, setState_setState]
        cases m.state.activeThread with
        | none => exact alone_panic
        | some current =>
          dsimp only
          rw [Kernel.perform,Program.perform_bind,alone_op (by simp)]
          simp only [label, perform, setState_state, setState_setState]
          rw [readyEnqueue,Program.bind_assoc,alone_alloc (allocator_free ha _),Kernel.perform,Program.perform_bind,
            alone_op (by simp)]
          exact alone_threadSwitch

/-- A tick that finds the scheduler locked goes by. -/
theorem alone_yieldCpu_locked (hs : m.locked .scheduler = true) : alone choice fuel yieldCpu m = .done () m := by
  rw [yieldCpu,tryLock,Kernel.perform,Program.perform_bind,alone_op (by simp)]
  simp only [label, perform, hs, Bool.not_true, Bool.false_eq_true, if_false]
  rw [setLock_eq_self m hs]
  exact alone_pure ()

theorem alone_kill (hs : m.locked .scheduler = false) (ha : m.locked .allocator = false) (id : Nat) :
    alone choice fuel (kill id) m =
      .done () ((m.setState (Scheduler.kill m.state id).2).drop (Scheduler.kill m.state id).1.toList) := by
  rw [kill,alone_lock hs,Kernel.perform,Program.perform_bind,alone_op (by simp)]
  simp only [label, perform, setLock_state, Scheduler.kill]
  cases (m.state.readyQueue.remove fun t => t.id == id).1 with
  | none => exact alone_leave hs _
  | some thread =>
    dsimp only
    rw [alone_dropBox (allocator_free ha _),alone_alloc]
    · exact alone_leave (m := m.drop [thread]) hs (Scheduler.kill m.state id).2
    · exact allocator_free ha (Scheduler.kill m.state id).2

/-- The loop drops the terminated threads one after the other. -/
private theorem alone_cleanup (hs : m.locked .scheduler = false) (ha : m.locked .allocator = false)
    (s : SchedulerState) {link : Link Thread} (ts : List Thread) (hl : link.toList.length ≤ fuel) :
    alone choice (fuel + 1) (.call .cleanup (unlock .scheduler))
        (((m.setLock .scheduler true).setState { s with terminatedThreads := ⟨link⟩ }).drop ts) =
      .done () ((m.setState { s with terminatedThreads := .new }).drop (link.toList.reverse ++ ts)) := by
  induction link generalizing fuel ts with
  | none =>
    rw [alone_call,Proc.body,terminatedDequeue,Program.bind_assoc,Program.bind_assoc,Kernel.perform,Program.perform_bind,
      alone_op (by simp)]
    exact alone_leave (m := m.drop ts) hs { s with terminatedThreads := .new }
  | node t next ih =>
    cases fuel with
    | zero => cases hl
    | succ fuel =>
      rw [alone_call,Proc.body,terminatedDequeue,Program.bind_assoc,Program.bind_assoc,Kernel.perform,
        Program.perform_bind,alone_op (by simp)]
      change alone choice (fuel + 1) (freeNode (some t) >>= _)
        (((m.drop ts).setLock .scheduler true).setState { s with terminatedThreads := ⟨next⟩ }) = _
      have ha' := allocator_free (m := m.drop ts) ha { s with terminatedThreads := ⟨next⟩ }
      rw [alone_freeNode ha']
      dsimp only
      rw [Program.bind_assoc,alone_dropBox ha']
      have h := ih (t :: ts) (Nat.le_of_succ_le_succ hl)
      rw [Link.toList_node,List.reverse_cons,List.append_assoc]
      exact h

theorem alone_cleanupTerminatedThreads (hs : m.locked .scheduler = false) (ha : m.locked .allocator = false)
    (hl : m.state.terminated.length ≤ fuel) :
    alone choice (fuel + 1) cleanupTerminatedThreads m =
      .done () ((m.setState (Scheduler.cleanupTerminatedThreads m.state).2).drop
        (Scheduler.cleanupTerminatedThreads m.state).1.reverse) := by
  rw [cleanupTerminatedThreads,tryLock,Kernel.perform,Program.perform_bind,alone_op (by simp)]
  simp only [label, perform, hs, Bool.not_false, if_true, Scheduler.cleanupTerminatedThreads_eq]
  have h := @alone_cleanup choice _ _ hs ha m.state _ [] hl
  rw [List.append_nil] at h
  exact h

theorem alone_schedule (hs : m.locked .scheduler = false) :
    alone choice fuel schedule m =
      match Scheduler.schedule m.state with
      | .error _ => .stuck
      | .ok (active,s) => .switched active ((m.setLock .scheduler true).setState s) := by
  rw [schedule,alone_lock hs,Kernel.perform,Program.perform_bind,alone_op (by simp)]
  simp only [label, perform, setLock_state, Scheduler.schedule]
  rw [Kernel.perform,Program.perform_bind,alone_op (by simp)]
  simp only [label, perform, setState_state]
  cases m.state.activeThread with
  | none => exact alone_panic
  | some active => exact alone_switchStack

end

/-! The machine takes these steps. -/
section
variable {α : Type} {m m' : Machine} {c : Ctx} {fs : List Frame} {k : α → Code Unit}

/-- The machine gets to the outcome without an interrupt, and the rest of the code is on the stack. -/
def Reaches (m : Machine) (c : Ctx) (fs : List Frame) (k : α → Code Unit) : Outcome α → Prop
  | .done a m' => ∃ labels own, (∀ i, .interrupt i ∉ labels) ∧
      system.Run m labels (m'.setStack c (⟨k a,own⟩ :: fs))
  | .switched next m' => ∃ labels code own, (∀ i, .interrupt i ∉ labels) ∧
      system.Run m labels ({ m' with cur := .thread next }.setStack c (⟨code,own⟩ :: fs))
  | .stuck => True

private theorem Reaches.step {label : Label} {o : Outcome α} (hl : ∀ i, label ≠ .interrupt i)
    (hs : m.exec label = some m') (h : m'.Reaches c fs k o) : m.Reaches c fs k o := by
  have hn {labels : List Label} (hi : ∀ i, .interrupt i ∉ labels) : ∀ i, .interrupt i ∉ label :: labels := by
    intro i hm
    rcases List.mem_cons.mp hm with he | hm
    · exact hl i he.symm
    · exact hi i hm
  cases o with
  | done a m'' =>
    obtain ⟨labels,own,hi,hr⟩ := h
    exact ⟨label :: labels,own,hn hi,.cons hs hr⟩
  | switched next m'' =>
    obtain ⟨labels,code,own,hi,hr⟩ := h
    exact ⟨label :: labels,code,own,hn hi,.cons hs hr⟩
  | stuck => trivial

private theorem label_ne (choice : Machine → Bool) (i : Instr) (j : Interrupt) :
    m.label choice i ≠ .interrupt j := by
  cases i <;> nofun

private theorem exec_op {i : Instr} {kk : i.Result → Code Unit} {own : Own} {label : Label} {r : i.Result}
    (hl : ∀ i, label ≠ .interrupt i) (hc : m.cur = c)
    (hp : (m.setStack c (⟨.op i kk,own⟩ :: fs)).perform i label =
      some (r,m'.setStack c (⟨.op i kk,own⟩ :: fs))) :
    (m.setStack c (⟨.op i kk,own⟩ :: fs)).exec label =
      some (m'.setStack c (⟨kk r,own.after i r⟩ :: fs)) := by
  have hcur : (m.setStack c (⟨.op i kk,own⟩ :: fs)).cur = c := hc
  have hs := setStack_self m c (⟨.op i kk,own⟩ :: fs)
  cases label with
  | interrupt i => exact absurd rfl (hl i)
  | _ => simp only [exec, hcur, hs, hp, setStack_setStack]

/-- Apart from a new thread's stack a step does not look at the stacks. -/
private theorem perform_setStack {i : Instr} {label : Label} {r : i.Result} (hi : ∀ next, i ≠ .switchStack next)
    (hm : m.stack c ≠ []) (hp : m.perform i label = some (r,m')) :
    (m.setStack c fs).perform i label = some (r,m'.setStack c fs) ∧ m'.cur = m.cur ∧
      m'.stack c = m.stack c := by
  cases i with
  | switchStack next => exact absurd rfl (hi next)
  | lock l =>
    cases label with
    | run =>
      rw [perform_lock] at hp
      split at hp
      · cases hp
      · rename_i hl
        cases hp
        have hl' : ¬(m.setStack c fs).locked l = true := hl
        exact ⟨by rw [perform_lock,if_neg hl']; rfl,rfl,rfl⟩
    | _ => cases hp
  | enqueueNew t =>
    cases label with
    | run =>
      simp only [perform] at hp
      split at hp
      · rename_i he
        cases hp
        have hc : Ctx.thread t ≠ c := fun h => hm (h ▸ List.isEmpty_iff.mp he)
        refine ⟨?_,rfl,setStack_ne _ hc.symm _⟩
        rw [perform,setStack_ne _ hc,if_pos he]
        exact congrArg (fun stack => some ((),({ m.setState _ with stack } : Machine)))
          (Function.update_comm hc.symm _ _ _)
      · cases hp
    | _ => cases hp
  | _ =>
    cases label <;> first | cases hp; exact ⟨rfl,rfl,rfl⟩ | cases hp

private theorem reaches_aloneWith {choice : Machine → Bool} {calls : Proc → Code α → Machine → Outcome α}
    (hcalls : ∀ p x (m : Machine) own, m.cur = c → m.stack c ≠ [] →
      (m.setStack c (⟨.call p (x >>= k),own⟩ :: fs)).Reaches c fs k (calls p x m))
    (x : Code α) (own : Own) (hc : m.cur = c) (hm : m.stack c ≠ []) :
    (m.setStack c (⟨x >>= k,own⟩ :: fs)).Reaches c fs k (aloneWith choice calls x m) := by
  induction x generalizing m own with
  | pure a => exact ⟨[],own,fun _ => List.not_mem_nil,.nil _⟩
  | call p x _ => exact hcalls p x m own hc hm
  | op i kk ih =>
    by_cases hi : ∃ next, i = .switchStack next
    · obtain ⟨next,rfl⟩ := hi
      have he : (m.setStack c (⟨.op (.switchStack next) fun r => kk r >>= k,own⟩ :: fs)).exec .run =
          some ({ m with cur := .thread next }.setStack c (⟨kk () >>= k,_⟩ :: fs)) := exec_op nofun hc rfl
      exact ⟨[.run],_,_,by simp,.cons he (.nil _)⟩
    · have hi : ∀ next, i ≠ .switchStack next := fun next h => hi ⟨next,h⟩
      rw [aloneWith]
      · cases hp : m.perform i (label choice m i) with
        | none => trivial
        | some p =>
          obtain ⟨r,m'⟩ := p
          obtain ⟨hp',hcur,hstack⟩ := perform_setStack hi hm hp
          have h := ih r (own.after i r) (hcur.trans hc) (hstack ▸ hm)
          exact h.step (label_ne choice i) (exec_op (label_ne choice i) hc hp')
      · exact fun next _ h _ => hi next h

/-- What code does on its own is a run of the machine from any state in which the code is next. -/
theorem reaches_alone {choice : Machine → Bool} {fuel : Nat} {x : Code α} {own : Own}
    (hs : m.stack m.cur = ⟨x >>= k,own⟩ :: fs) : m.Reaches m.cur fs k (alone choice fuel x m) := by
  have key (x : Code α) (c : Ctx) (m : Machine) (own : Own) (hc : m.cur = c) (hm : m.stack c ≠ []) :
      (m.setStack c (⟨x >>= k,own⟩ :: fs)).Reaches c fs k (alone choice fuel x m) := by
    induction fuel generalizing x c m own with
    | zero =>
      apply reaches_aloneWith _ x own hc hm
      intro p x m own hc hm
      trivial
    | succ fuel ih =>
      apply reaches_aloneWith _ x own hc hm
      intro p x m own hc hm
      have h := ih (p.body >>= fun _ => x) c m own hc hm
      rw [Program.bind_assoc] at h
      apply h.step (show ∀ i, Label.run ≠ .interrupt i from nofun)
      have hcur : (m.setStack c (⟨.call p (x >>= k),own⟩ :: fs)).cur = c := hc
      have hs := setStack_self m c (⟨.call p (x >>= k),own⟩ :: fs)
      simp only [exec, hcur, hs, if_true, setStack_setStack]
  have h := key x m.cur m own rfl (by rw [hs]; exact List.cons_ne_nil _ _)
  rwa [← hs,setStack_eq_self] at h

end

end Machine

end HeineOS.Kernel
