import HeineOS.Kernel.Preservation

/-! The lock of the scheduler is handed over between stacks and the lock of the vectors is given up by
the timer, and both are dropped a second time later. No section is entered twice, and no late
drop or dropped thread does harm. -/
namespace HeineOS.Kernel
open Lib Scheduler Protocol

/-- The instructions that read or write `SchedulerState`. -/
def Instr.accessesState : Instr → Bool
  | .initialized | .setInitialized | .active | .takeActive | .setActive _ | .enqueueReady _ | .enqueueNew _
  | .dequeueReady | .removeReady _ | .enqueueTerminated _ | .dequeueTerminated => true
  | _ => false

/-- The instructions that read or write the map of `INT_VECTORS`. -/
def Instr.accessesVectors : Instr → Bool
  | .lookupIsr _ | .replaceIsr _ => true
  | _ => false

namespace Machine
variable (m : Machine)

/-- The instruction that comes next, and the guards in its frame. -/
def Next (i : Instr) (o : Own) : Prop := ∃ k fs, m.stack m.cur = ⟨.op i k,o⟩ :: fs

/-- The `n`-th frame of a context is inside a section of the lock. -/
def Inside (l : Lock) (c : Ctx) (n : Nat) : Prop := ∃ f, (m.stack c)[n]? = some f ∧ f.own.holds l = true

structure HandOff : Prop where
  /-- At most one frame is inside a section, and the lock is taken then. -/
  exclusive : ∀ l, l = .scheduler ∨ l = .intVectors → ∀ c c' n n', m.Inside l c n → m.Inside l c' n' →
    c = c' ∧ n = n'
  locked : ∀ l, l = .scheduler ∨ l = .intVectors → ∀ c n, m.Inside l c n → m.locked l = true
  /-- The scheduler and the vectors are accessed inside of their sections. -/
  state : ∀ i o, m.Next i o → i.accessesState = true → m.Inside .scheduler m.cur 0
  vectors : ∀ i o, m.Next i o → i.accessesVectors = true → m.Inside .intVectors m.cur 0
  /-- A guard that was unlocked by force is dropped while the lock is free. -/
  lateScheduler : ∀ o, m.Next (.unlock .scheduler) o → o.sched ≠ .live → m.locked .scheduler = false
  lateVectors : ∀ o, m.Next (.unlock .intVectors) o → o.ints ≠ .live → m.locked .intVectors = false
  /-- The locks are unlocked by force when nobody else is inside. -/
  forceScheduler : ∀ o, m.Next (.forceUnlock .scheduler) o → ∀ c n, ¬ m.Inside .scheduler c n
  forceVectors : ∀ o, m.Next (.forceUnlock .intVectors) o → m.Inside .intVectors m.cur 0
  /-- A thread is dropped when it neither runs nor will. -/
  drop : ∀ t o, m.Next (.dropThread t) o → m.cur ≠ .thread t ∧ m.state.activeThread ≠ some t ∧ t ∉ m.state.ready
  dropped : ∀ t ∈ m.dropped, m.cur ≠ .thread t ∧ m.state.activeThread ≠ some t ∧ t ∉ m.state.ready

end Machine

namespace Sched
variable {f f' : Frame} {fs : List Frame} {b : Bool}

theorem tail (h : Sched b (f :: fs)) : ∃ b', Sched b' fs := by
  cases b with
  | false => exact ⟨false,h.2.2⟩
  | true =>
    rcases h with ⟨_,h⟩ | ⟨_,_,h⟩
    · exact ⟨false,h⟩
    · exact ⟨true,h⟩

theorem live_unique (h : Sched b fs) {n n' : Nat} (hn : fs[n]? = some f) (hl : f.own.sched = .live)
    (hn' : fs[n']? = some f') (hl' : f'.own.sched = .live) : n = n' := by
  induction fs generalizing b n n' with
  | nil => cases hn
  | cons f₀ fs ih =>
    cases n with
    | zero =>
      obtain rfl := Option.some.inj hn
      cases n' with
      | zero => rfl
      | succ n' => exact absurd hl' ((h.of_live hl).2.not_live _ (List.mem_of_getElem? hn'))
    | succ n =>
      cases n' with
      | zero =>
        obtain rfl := Option.some.inj hn'
        exact absurd hl ((h.of_live hl').2.not_live _ (List.mem_of_getElem? hn))
      | succ n' =>
        obtain ⟨b',ht⟩ := h.tail
        rw [ih ht hn hn']

theorem locked_of_live (h : Sched b fs) {f : Frame} (hf : f ∈ fs) (hl : f.own.sched = .live) : b = true := by
  cases b with
  | true => rfl
  | false => exact absurd hl (h.not_live f hf)

end Sched

theorem Parked.not_inside {mode : Mode} {c : Ctx} {fs : List Frame} (h : Parked mode c fs) {f : Frame}
    (hf : f ∈ fs) : f.own.sched ≠ .live ∧ f.own.ints ≠ .live ∧ f.own.keyboard = false := by
  rcases h with rfl | ⟨f',rest,rfl,_,hs,hsched,⟨g,hr,_,hsus⟩,hwaits⟩
  · exact absurd hf List.not_mem_nil
  · rcases List.mem_cons.mp hf with rfl | hf
    · exact ⟨hs,hr.own ▸ hsus.1,hr.own ▸ hsus.2⟩
    · obtain ⟨g',hr',_,hsus'⟩ := hwaits f hf
      exact ⟨hsched.not_live f hf,hr'.own ▸ hsus'.1,hr'.own ▸ hsus'.2⟩

namespace Machine.Inv
variable {m : Machine} {mode : Mode} {φ : Phase} {f : Frame} {fs : List Frame} {g : Local}

theorem inside_scheduler (h : m.Inv mode φ f fs g) {c : Ctx} {n : Nat} (hi : m.Inside .scheduler c n) :
    c = m.cur ∧ ∃ f', (f :: fs)[n]? = some f' ∧ f'.own.sched = .live := by
  obtain ⟨f',hf',hl⟩ := hi
  have hlive : f'.own.sched = .live := beq_iff_eq.mp hl
  by_cases hc : c = m.cur
  · rw [hc,h.stack] at hf'
    exact ⟨hc,f',hf',hlive⟩
  · exact absurd hlive ((h.parked c hc).not_inside (List.mem_of_getElem? hf')).1

theorem inside_intVectors (h : m.Inv mode φ f fs g) {c : Ctx} {n : Nat} (hi : m.Inside .intVectors c n) :
    c = m.cur ∧ n = 0 ∧ m.locked .intVectors = true := by
  obtain ⟨f',hf',hl⟩ := hi
  have hlive : f'.own.ints = .live := beq_iff_eq.mp hl
  by_cases hc : c = m.cur
  · rw [hc,h.stack] at hf'
    cases n with
    | zero =>
      obtain rfl := Option.some.inj hf'
      exact ⟨hc,rfl,h.sections.ints.symm.trans hl⟩
    | succ n =>
      obtain ⟨g',hr,_,hsus⟩ := h.waits f' (List.mem_of_getElem? hf')
      exact absurd hlive (hr.own ▸ hsus.1)
  · exact absurd hlive ((h.parked c hc).not_inside (List.mem_of_getElem? hf')).2.1

theorem next {i : Instr} {o : Own} (h : m.Inv mode φ f fs g) (hn : m.Next i o) :
    f.own = o ∧ g.own = o ∧ g.Allowed mode i := by
  obtain ⟨k,fs',hs⟩ := hn
  obtain ⟨rfl,rfl⟩ := List.cons.inj (h.stack.symm.trans hs)
  exact ⟨rfl,h.runs.own,h.runs.follows.1⟩

theorem inside_top {l : Lock} (h : m.Inv mode φ f fs g) (hl : f.own.holds l = true) : m.Inside l m.cur 0 :=
  ⟨f,by rw [h.stack]; rfl,hl⟩

theorem locked_of_inside {l : Lock} (h : m.Inv mode φ f fs g) (hl : l = .scheduler ∨ l = .intVectors)
    {c : Ctx} {n : Nat} (hi : m.Inside l c n) : m.locked l = true := by
  rcases hl with rfl | rfl
  · obtain ⟨_,f',hf',hlive⟩ := h.inside_scheduler hi
    exact h.sched.locked_of_live (List.mem_of_getElem? hf') hlive
  · exact (h.inside_intVectors hi).2.2

theorem inside_unique {l : Lock} (h : m.Inv mode φ f fs g) (hl : l = .scheduler ∨ l = .intVectors)
    {c c' : Ctx} {n n' : Nat} (hi : m.Inside l c n) (hi' : m.Inside l c' n') : c = c' ∧ n = n' := by
  rcases hl with rfl | rfl
  · obtain ⟨hc,f₁,hf,hlive⟩ := h.inside_scheduler hi
    obtain ⟨hc',f₂,hf',hlive'⟩ := h.inside_scheduler hi'
    exact ⟨hc.trans hc'.symm,h.sched.live_unique hf hlive hf' hlive'⟩
  · obtain ⟨hc,hn,_⟩ := h.inside_intVectors hi
    obtain ⟨hc',hn',_⟩ := h.inside_intVectors hi'
    exact ⟨hc.trans hc'.symm,hn.trans hn'.symm⟩

end Machine.Inv

theorem Local.live_of_accessesState {mode : Mode} {g : Local} {i : Instr} (ha : g.Allowed mode i)
    (hi : i.accessesState = true) : g.own.sched = .live := by
  cases i with
  | initialized => exact ha.1
  | setInitialized => exact ha.1.1
  | active => exact ha.elim (·.1) (·.1)
  | takeActive => exact ha.2.elim (·.1) fun ⟨_,h⟩ => h.1
  | setActive t => exact ha.elim fun _ h => h.1
  | enqueueReady t => exact ha.elim fun _ h => h.1
  | enqueueNew t => exact ha.1
  | dequeueReady => exact ha.2.elim (·.1) fun ⟨_,h⟩ => h.1
  | removeReady id => exact ha.1
  | enqueueTerminated t => exact ha.elim fun _ h => h.1
  | dequeueTerminated => exact ha.1
  | _ => cases hi

namespace Machine.Owned
variable {m : Machine} {φ : Phase}

/-- The running thread is somewhere other than among the dropped ones. -/
theorem cur_mem (h : m.Owned φ) {c : Thread} (hc : m.cur = .thread c) :
    c ∈ φ.hand ++ (m.state.activeThread.toList ++ (m.state.ready ++ m.state.terminated)) := by
  have hsettled : m.Settled → c ∈ m.state.activeThread.toList := by
    rintro (⟨a,ha,hcur,_⟩ | ⟨_,hcur,_⟩)
    · rw [ha,Ctx.thread.inj (hc.symm.trans hcur)]
      exact List.mem_singleton_self a
    · cases hc.symm.trans hcur
  have hslot := h.slot
  cases φ with
  | rest => exact List.mem_append_right _ (List.mem_append_left _ (hsettled hslot))
  | popped n => exact List.mem_append_right _ (List.mem_append_left _ (hsettled hslot))
  | dropping t => exact List.mem_append_right _ (List.mem_append_left _ (hsettled hslot))
  | taken c' n =>
    rw [Ctx.thread.inj (hc.symm.trans hslot.2.1)]
    exact List.mem_append_left _ List.mem_cons_self
  | placed c' n =>
    rw [Ctx.thread.inj (hc.symm.trans hslot.2.1)]
    exact List.mem_append_left _ (List.mem_singleton_self c')
  | left c' n =>
    rw [Ctx.thread.inj (hc.symm.trans hslot.2.1)]
    exact List.mem_append_right _ (List.mem_append_right _ (List.mem_append_left _ hslot.2.2.2))
  | gone c' n =>
    rw [Ctx.thread.inj (hc.symm.trans hslot.2.1)]
    exact List.mem_append_right _ (List.mem_append_right _ (List.mem_append_right _ hslot.2.2.2))
  | starting => cases hc.symm.trans hslot.2.1
  | started n => cases hc.symm.trans hslot.2.1

/-- A dropped thread does not run, and the scheduler does not know it any more. -/
theorem dropped_gone (h : m.Owned φ) {t : Thread} (ht : t ∈ m.dropped) :
    m.cur ≠ .thread t ∧ m.state.activeThread ≠ some t ∧ t ∉ m.state.ready := by
  have hnodup := h.nodup
  rw [threads,← List.append_assoc m.state.ready,← List.append_assoc m.state.activeThread.toList,
    ← List.append_assoc] at hnodup
  have hnot : t ∉ φ.hand ++ (m.state.activeThread.toList ++ (m.state.ready ++ m.state.terminated)) :=
    fun hm => (List.nodup_append.mp hnodup).2.2 t hm t ht rfl
  refine ⟨fun hc => hnot (h.cur_mem hc),fun ha => hnot ?_,fun hr => hnot ?_⟩
  · rw [ha]
    exact List.mem_append_right _ List.mem_cons_self
  · exact List.mem_append_right _ (List.mem_append_right _ (List.mem_append_left _ hr))

/-- So is a thread that is about to be dropped. -/
theorem dropping_gone {t : Thread} (h : m.Owned (.dropping t)) :
    m.cur ≠ .thread t ∧ m.state.activeThread ≠ some t ∧ t ∉ m.state.ready := by
  have hg := h.dropThread.dropped_gone (t := t) List.mem_cons_self
  exact hg

end Machine.Owned

/-- For every interleaving of the operations of the scheduler, of `register` and of interrupts at
every point where they are enabled: at most one context is inside a section of the scheduler or of
the vectors, the late drop of a guard never releases a lock that anybody holds, and no thread is
dropped that runs or waits to run. -/
theorem hand_off_safe {m : Machine} (hr : Machine.system.Reachable m) : m.HandOff := by
  obtain ⟨φ,f,fs,g,h⟩ := Machine.Ok.of_reachable hr
  constructor
  case exclusive => exact fun l hl c c' n n' hi hi' => h.inside_unique hl hi hi'
  case locked => exact fun l hl c n hi => h.locked_of_inside hl hi
  case state =>
    intro i o hn hi
    obtain ⟨hf,hg,ha⟩ := h.next hn
    refine h.inside_top (beq_iff_eq.mpr ?_)
    rw [hf,← hg]
    exact Local.live_of_accessesState ha hi
  case vectors =>
    intro i o hn hi
    obtain ⟨hf,hg,ha⟩ := h.next hn
    refine h.inside_top (beq_iff_eq.mpr ?_)
    rw [hf,← hg]
    cases i with
    | lookupIsr v => exact ha
    | replaceIsr v => exact ha
    | _ => cases hi
  case lateScheduler =>
    intro o hn hl
    obtain ⟨hf,hg,ha⟩ := h.next hn
    subst hf
    have hstale : f.own.sched = .stale := by
      cases hs : f.own.sched with
      | absent => exact absurd (hg ▸ hs) ha.1
      | live => exact absurd hs hl
      | stale => rfl
    exact h.sched.of_stale hstale (hg ▸ ha.2.1)
  case lateVectors =>
    intro o hn hl
    obtain ⟨hf,_,_⟩ := h.next hn
    rw [← h.sections.ints,hf]
    exact beq_eq_false_iff_ne.mpr hl
  case forceScheduler =>
    intro o hn c n hi
    obtain ⟨hf,hg,ha⟩ := h.next hn
    subst hf
    obtain ⟨hc,f',hf',hlive⟩ := h.inside_scheduler hi
    have hrest := (h.sched.of_handoff (hg ▸ ha.1)).2
    cases n with
    | zero =>
      obtain rfl := Option.some.inj hf'
      exact ha.2 (hg ▸ hlive)
    | succ n => exact hrest.not_live f' (List.mem_of_getElem? hf') hlive
  case forceVectors =>
    intro o hn
    obtain ⟨hf,hg,ha⟩ := h.next hn
    refine h.inside_top (beq_iff_eq.mpr ?_)
    rw [hf,← hg]
    exact ha
  case drop =>
    intro t o hn
    obtain ⟨hf,hg,ha⟩ := h.next hn
    have howned := h.owned
    rw [← h.runs.live (hf ▸ hg ▸ ha.1),ha.2] at howned
    exact howned.dropping_gone
  case dropped => exact fun t ht => h.owned.dropped_gone ht

/-- Two threads: the first one yields and the timer takes the second one off the CPU, so that the
first one is back at the drop of its guard. -/
def handOffRun : List Label := Machine.script
  [(.run,0),(.act (.ready ⟨1⟩),6),(.act .schedule,9),(.act .yieldCpu,19),(.interrupt .pit,22)]

/-- The next step drops a guard that is stale. -/
def Machine.lateDrop (m : Machine) : Bool :=
  match m.stack m.cur with
  | ⟨.op (.unlock .scheduler) _,o⟩ :: _ => o.sched == .stale
  | _ => false

theorem hand_off_safe_sample :
    ∃ m, Machine.system.Reachable m ∧ m.lateDrop = true ∧ m.HandOff := by
  have hrun : ((Machine.start ⟨0⟩ (fun _ => true) 0 ⟨0,0⟩).execAll (fun _ _ => true) handOffRun).any
      Machine.lateDrop = true := by decide +kernel
  obtain ⟨m,hm,hl⟩ := Machine.reachable_of_execAll hrun
  exact ⟨m,hm.of_restrict,hl,hand_off_safe hm.of_restrict⟩

end HeineOS.Kernel
