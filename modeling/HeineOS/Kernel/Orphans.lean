import HeineOS.Kernel.HandOff

/-! Locks whose holder never runs again. Neither `exit` nor `kill` runs the drops of the guards on a
stack, so a lock outlives the thread that holds it. -/
namespace HeineOS.Kernel
open Lib Scheduler Protocol

/-- The frame has come to the end of a panic. -/
def Frame.Halted (f : Frame) : Prop := ∃ k, f.code = .op .halt k

namespace Machine
variable (m : Machine)

/-- A guard of the lock is on the stack of the context. -/
def HeldBy (l : Lock) (c : Ctx) : Prop := ∃ f ∈ m.stack c, f.own.holds l = true

structure NoOrphans : Prop where
  /-- A taken lock has a holder. That of the scheduler runs and never panics, or the lock is being handed over. -/
  holder : ∀ l, l ≠ .scheduler → m.locked l = true → ∃ c, m.HeldBy l c
  scheduler : m.locked .scheduler = true →
    ∃ f ∈ m.stack m.cur, (f.own.sched = .live ∧ ¬ f.Halted) ∨ f.own.handoff = true
  /-- A holder is not dropped, and not terminated unless it is still on its way out. -/
  dropped : ∀ l t, m.HeldBy l (.thread t) → t ∉ m.dropped
  terminated : ∀ l t, m.HeldBy l (.thread t) → t ∈ m.state.terminated → m.cur = .thread t
  boot : ∀ l, m.HeldBy l .boot → m.cur = .boot
  /-- While nobody is at work on the scheduler, a holder is the active thread or in the ready queue. -/
  alive : m.locked .scheduler = false → ∀ l t, m.HeldBy l (.thread t) →
    m.state.activeThread = some t ∨ t ∈ m.state.ready

end Machine

theorem Parked.plain_of_holds {mode : Mode} {c : Ctx} {fs : List Frame} (h : Parked mode c fs) {f : Frame}
    {l : Lock} (hf : f ∈ fs) (hl : f.own.holds l = true) : l.plain = true := by
  obtain ⟨hs,hi,hk⟩ := h.not_inside hf
  cases l with
  | scheduler => exact absurd (beq_iff_eq.mp hl) hs
  | intVectors => exact absurd (beq_iff_eq.mp hl) hi
  | keyboard => cases hk.symm.trans hl
  | _ => rfl

theorem Sched.owner {fs : List Frame} (h : Sched true fs) :
    ∃ f ∈ fs, f.own.sched = .live ∨ f.own.handoff = true := by
  induction fs with
  | nil => cases h
  | cons f fs ih =>
    rcases h with ⟨ho,_⟩ | ⟨_,_,h⟩
    · exact ⟨f,List.mem_cons_self,ho⟩
    · obtain ⟨f',hf',ho⟩ := ih h
      exact ⟨f',List.mem_cons_of_mem _ hf',ho⟩

/-- In clean runs no panic is reached with the scheduler locked. -/
theorem Runs.not_halted {mode : Mode} {c : Ctx} {φ : Phase} {f : Frame} {g : Local} (h : Runs mode c φ f g)
    (hm : mode.clean = true) (hl : f.own.sched = .live) : ¬ f.Halted := by
  rintro ⟨k,hk⟩
  have hfollows := h.follows
  rw [hk] at hfollows
  exact hfollows.1 hm (h.own ▸ hl)

namespace Machine.Inv
variable {m : Machine} {mode : Mode} {φ : Phase} {f : Frame} {fs : List Frame} {g : Local} {l : Lock}

theorem holder_of_locked (h : m.Inv mode φ f fs g) (hs : l ≠ .scheduler) (hl : m.locked l = true) :
    ∃ c, m.HeldBy l c := by
  have htop : f.own.holds l = true → ∃ c, m.HeldBy l c :=
    fun ho => ⟨m.cur,f,by rw [h.stack]; exact List.mem_cons_self,ho⟩
  have hplain : l.plain = true → ∃ c, m.HeldBy l c := by
    intro hp
    obtain ⟨c,f',hf',hm⟩ := h.kept.held l hp hl
    exact ⟨c,f',hf',by rw [Own.holds_plain hp]; exact List.contains_iff_mem.mpr hm⟩
  cases l with
  | scheduler => exact absurd rfl hs
  | intVectors => exact htop (h.sections.ints.trans hl)
  | keyboard => exact htop (h.sections.keyboard.trans hl)
  | _ => exact hplain rfl

/-- A parked stack with a guard on it is not bare. -/
theorem not_bare (h : m.Inv mode φ f fs g) {c : Ctx} (hc : c ≠ m.cur) (hl : m.HeldBy l c) :
    bare (m.stack c) = false := by
  obtain ⟨f',hf',hholds⟩ := hl
  have hp := (h.parked c hc).plain_of_holds hf' hholds
  rw [Own.holds_plain hp] at hholds
  refine List.all_eq_false.mpr ⟨f',hf',?_⟩
  rw [List.isEmpty_iff]
  exact List.ne_nil_of_mem (List.contains_iff_mem.mp hholds)

/-- In clean runs a holder that is not running is not removed. -/
theorem not_removed (h : m.Inv mode φ f fs g) (hm : mode.clean = true) {t : Thread} (hc : m.cur ≠ .thread t)
    (hl : m.HeldBy l (.thread t)) : t ∉ m.removed φ := by
  intro ht
  have hbare := h.kept.removed hm t ht hc
  rw [h.not_bare hc.symm hl] at hbare
  cases hbare

theorem terminated_removed {t : Thread} (ht : t ∈ m.state.terminated) : t ∈ m.removed φ :=
  List.mem_append_right _ (List.mem_append_left _ ht)

theorem dropped_removed {t : Thread} (ht : t ∈ m.dropped) : t ∈ m.removed φ :=
  List.mem_append_right _ (List.mem_append_right _ ht)

theorem noOrphans (h : m.Inv mode φ f fs g) (hm : mode.clean = true) : m.NoOrphans := by
  have hdropped : ∀ l t, m.HeldBy l (.thread t) → t ∉ m.dropped := by
    intro l t hl ht
    exact h.not_removed hm (h.owned.dropped_gone ht).1 hl (dropped_removed ht)
  have hterminated : ∀ l t, m.HeldBy l (.thread t) → t ∈ m.state.terminated → m.cur = .thread t := by
    intro l t hl ht
    by_contra hc
    exact h.not_removed hm hc hl (terminated_removed ht)
  constructor
  case holder => exact fun l hs hl => h.holder_of_locked hs hl
  case scheduler =>
    intro hl
    have hsched := h.sched
    rw [hl] at hsched
    obtain ⟨f',hf',howner⟩ := hsched.owner
    refine ⟨f',h.stack ▸ hf',howner.imp_left fun hlive => ⟨hlive,?_⟩⟩
    rcases List.mem_cons.mp hf' with rfl | hf'
    · exact h.runs.not_halted hm hlive
    · obtain ⟨_,hruns,_⟩ := h.waits f' hf'
      exact hruns.not_halted hm hlive
  case dropped => exact hdropped
  case terminated => exact hterminated
  case boot =>
    intro l hl
    by_contra hc
    have hbare := h.kept.boot hm hc
    rw [h.not_bare (Ne.symm hc) hl] at hbare
    cases hbare
  case alive =>
    intro hfree l t hl
    have howned := h.owned
    rw [h.rest_of_unlocked hfree] at howned
    have hne : m.stack (.thread t) ≠ [] := hl.elim fun _ hf => List.ne_nil_of_mem hf.1
    have hknown := (howned.known t).mpr hne
    change t ∈ m.state.activeThread.toList ++ (m.state.ready ++ (m.state.terminated ++ m.dropped)) at hknown
    rcases List.mem_append.mp hknown with ha | hknown
    · exact .inl (Option.mem_toList.mp ha)
    rcases List.mem_append.mp hknown with hr | hknown
    · exact .inr hr
    rcases List.mem_append.mp hknown with ht | hd
    · have hc := hterminated l t hl ht
      obtain ⟨a,ha,hcur,_⟩ := Settled.thread howned.slot (by rw [hc]; rfl)
      rw [← Ctx.thread.inj (hc.symm.trans hcur)] at ha
      exact .inl ha
    · exact absurd hd (hdropped l t hl)

end Machine.Inv

/-- As long as a thread is exited or killed only while it holds no lock, an exiting thread finds a ready one, and the boot
code starts the scheduler without a lock, every taken lock has a holder that neither was removed nor, for the scheduler,
has panicked. -/
theorem no_orphaned_locks {m : Machine}
    (hr : (Machine.system.restrict fun m label => m.leavesClean label = true).Reachable m) : m.NoOrphans := by
  obtain ⟨φ,f,fs,g,h⟩ : m.Ok ⟨false,true⟩ :=
    Machine.Ok.of_restricted (fun _ _ hc => ⟨nofun,fun _ => hc⟩) hr
  exact h.noOrphans rfl

/-- The second of two threads runs, takes the terminal and goes on as given. -/
def terminalRun (rest : List (Label × Nat)) : List Label := Machine.script
  ((.run,0) :: (.act (.ready ⟨1⟩),6) :: (.act .schedule,9) :: (.act .yieldCpu,19) ::
    (.act (.acquire .terminal),2) :: rest)

/-- It drops its guard and exits, and the other thread takes the lock. -/
theorem no_orphaned_locks_sample :
    ∃ m, (Machine.system.restrict fun m label => m.leavesClean label = true).Reachable m ∧
      (m.locked .terminal && m.state.terminated == [⟨1⟩]) = true ∧ m.NoOrphans := by
  have hrun : ((Machine.start ⟨0⟩ (fun _ => true) 0 ⟨0,0⟩).execAll Machine.leavesClean
      (terminalRun [(.act (.release .terminal),2),(.act .exit,16),(.act (.acquire .terminal),1)])).any
      (fun m => m.locked .terminal && m.state.terminated == [⟨1⟩]) = true := by decide +kernel
  obtain ⟨m,hm,hgoal⟩ := Machine.reachable_of_execAll hrun
  exact ⟨m,hm,hgoal,no_orphaned_locks hm⟩

/-- It exits with its guard, as `thread_entry` does, and the terminal stays locked for ever. -/
theorem no_orphaned_locks_fails : ¬ ∀ m, Machine.system.Reachable m → m.NoOrphans := by
  intro hall
  have hrun : ((Machine.start ⟨0⟩ (fun _ => true) 0 ⟨0,0⟩).execAll (fun _ _ => true)
      (terminalRun [(.act .exit,16)])).any
      (fun m => (m.stack (.thread ⟨1⟩)).any (fun f => f.own.holds .terminal) &&
        (m.state.terminated.contains ⟨1⟩ && m.cur == .thread ⟨0⟩)) = true := by decide +kernel
  obtain ⟨m,hm,hgoal⟩ := Machine.reachable_of_execAll hrun
  obtain ⟨hheld,hrest⟩ := Bool.and_eq_true_iff.mp hgoal
  obtain ⟨hterm,hcur⟩ := Bool.and_eq_true_iff.mp hrest
  have hc := (hall m hm.of_restrict).terminated .terminal ⟨1⟩ (List.any_eq_true.mp hheld)
    (List.contains_iff_mem.mp hterm)
  rw [beq_iff_eq.mp hcur] at hc
  cases hc

end HeineOS.Kernel
