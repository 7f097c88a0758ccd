import HeineOS.Thread.Scheduler
import Mathlib.Data.List.Perm.Basic
import Mathlib.Data.List.Nodup

/-! Runs of the scheduler's operations from `Scheduler::new`. Threads move between the active slot
and the two queues, and none is lost or doubled. -/
namespace HeineOS.Scheduler
open Lib

/-- The scheduler with the threads created but not registered, all that were ever registered and
all that were dropped. -/
structure Threads where
  state : SchedulerState
  counter : Nat
  unregistered : List Thread
  registered : List Thread
  dropped : List Thread

inductive Op where
  | create
  | ready (thread : Thread)
  | schedule
  | yieldCpu (allocatorLocked : Bool)
  | exit
  | kill (id : Nat)
  | cleanup
  deriving DecidableEq

namespace Threads

/-- A thread is registered once, and the counter does not wrap around. -/
def Admissible (t : Threads) : Op → Prop
  | .create => t.counter + 1 < 2^64
  | .ready thread => thread ∈ t.unregistered
  | _ => True

def exec (t : Threads) : Op → Except Panic Threads
  | .create =>
    let (id,counter) := nextId t.counter
    .ok { t with counter, unregistered := ⟨id⟩ :: t.unregistered }
  | .ready thread => .ok { t with
      state := Scheduler.ready t.state thread
      unregistered := t.unregistered.erase thread
      registered := thread :: t.registered }
  | .schedule => do
    let (_,state) ← Scheduler.schedule t.state
    return { t with state }
  | .yieldCpu allocatorLocked => do
    let (_,state) ← Scheduler.yieldCpu t.state allocatorLocked
    return { t with state }
  | .exit => do
    let (_,state) ← Scheduler.exit t.state
    return { t with state }
  | .kill id =>
    let (dropped,state) := Scheduler.kill t.state id
    .ok { t with state, dropped := dropped.toList ++ t.dropped }
  | .cleanup =>
    let (dropped,state) := Scheduler.cleanupTerminatedThreads t.state
    .ok { t with state, dropped := dropped ++ t.dropped }

/-- Runs from `Scheduler::new`, which gives the next id to the idle thread; threads may have been
created before. A step does not panic. -/
def system : System Threads Op where
  init t := ∃ k, k + 1 < 2^64 ∧
    t = ⟨Scheduler.new ⟨k⟩,k + 1,(List.range k).map Thread.mk,[⟨k⟩],[]⟩
  step t op t' := t.Admissible op ∧ t.exec op = .ok t'

end Threads

/-- The scheduler as lists of threads. -/
structure Queues where
  active : Option Thread
  ready : List Thread
  terminated : List Thread
  dropped : List Thread
  initialized : Bool

/-- What each operation does to the lists. -/
inductive Move : Op → Queues → Queues → Prop where
  | create (q : Queues) : Move .create q q
  | ready (q : Queues) (thread : Thread) : Move (.ready thread) q { q with ready := q.ready ++ [thread] }
  | schedule (q : Queues) : Move .schedule q { q with initialized := true }
  | stay (q : Queues) (b : Bool) (h : q.initialized = false ∨ b = true ∨ q.ready = []) : Move (.yieldCpu b) q q
  | yield (q : Queues) (c n : Thread) (rest : List Thread) (hi : q.initialized = true)
      (ha : q.active = some c) (hr : q.ready = n :: rest) :
      Move (.yieldCpu false) q { q with active := some n, ready := rest ++ [c] }
  | exit (q : Queues) (c n : Thread) (rest : List Thread) (ha : q.active = some c) (hr : q.ready = n :: rest) :
      Move .exit q { q with active := some n, ready := rest, terminated := q.terminated ++ [c] }
  | miss (q : Queues) (id : Nat) (h : ∀ thread ∈ q.ready, thread.id ≠ id) : Move (.kill id) q q
  | kill (q : Queues) (pre : List Thread) (victim : Thread) (post : List Thread)
      (hr : q.ready = pre ++ victim :: post) (hpre : ∀ thread ∈ pre, thread.id ≠ victim.id) :
      Move (.kill victim.id) q { q with ready := pre ++ post, dropped := victim :: q.dropped }
  | cleanup (q : Queues) :
      Move .cleanup q { q with terminated := [], dropped := q.terminated ++ q.dropped }

namespace Threads

def queues (t : Threads) : Queues :=
  ⟨t.state.activeThread,t.state.ready,t.state.terminated,t.dropped,t.state.initialized⟩

/-- A call of the scheduler that does not panic gives a new state, and changes none of the records. -/
private theorem state_of_ok {α : Type} {t t' : Threads} {x : Except Panic (α × SchedulerState)}
    (he : (x >>= fun r => pure { t with state := r.2 }) = .ok t') : ∃ r, x = .ok r ∧ t' = { t with state := r.2 } := by
  cases x with
  | error e => exact nomatch he
  | ok r => exact ⟨r,rfl,(Except.ok.inj he).symm⟩

/-- Every step of the scheduler moves the threads in its lists. -/
theorem step_move {t t' : Threads} {op : Op} (hs : system.step t op t') : Move op t.queues t'.queues := by
  obtain ⟨_,he⟩ := hs
  cases op with
  | create =>
    cases he
    exact .create _
  | ready thread =>
    cases he
    have h := Move.ready t.queues thread
    simp only [queues, ← ready_ready] at h
    exact h
  | schedule =>
    obtain ⟨r,hr,rfl⟩ := state_of_ok he
    rcases schedule_cases t.state with ⟨hx,_⟩ | ⟨a,_,hx⟩
    · exact nomatch hx.symm.trans hr
    · cases hx.symm.trans hr
      exact .schedule _
  | yieldCpu b =>
    obtain ⟨r,hcall,rfl⟩ := state_of_ok he
    rcases yieldCpu_cases t.state b with ⟨hx,hstay⟩ | ⟨hx,_⟩ | ⟨c,n,rest,s',hx,hi,hb,ha,hr,ha',hr',ht',hi'⟩
    · cases hx.symm.trans hcall
      exact .stay _ b hstay
    · exact nomatch hx.symm.trans hcall
    · cases hx.symm.trans hcall
      have h := Move.yield t.queues c n rest hi ha hr
      simp only [queues, SchedulerState.terminated, ← ha', ← hr', ← ht', ← hi', hb] at h ⊢
      exact h
  | exit =>
    obtain ⟨r,hcall,rfl⟩ := state_of_ok he
    rcases exit_cases t.state with ⟨hx,_⟩ | ⟨hx,_⟩ | ⟨c,n,s',hx,ha,hr,ha',ht',hi'⟩
    · exact nomatch hx.symm.trans hcall
    · exact nomatch hx.symm.trans hcall
    · cases hx.symm.trans hcall
      have h := Move.exit t.queues c n s'.ready ha hr
      simp only [queues, ← ha', ← ht', ← hi'] at h ⊢
      exact h
  | kill id =>
    rcases kill_cases t.state id with ⟨hx,hmiss⟩ | ⟨pre,v,post,s',hx,rfl,hpre,hr,hr',ha',ht',hi'⟩
    · simp only [exec, hx] at he
      cases he
      exact .miss _ id hmiss
    · simp only [exec, hx] at he
      cases he
      have h := Move.kill t.queues pre v post hr hpre
      simp only [queues, SchedulerState.terminated, ← ha', ← hr', ← ht', ← hi'] at h ⊢
      exact h
  | cleanup =>
    simp only [exec, cleanupTerminatedThreads_eq] at he
    cases he
    exact .cleanup _

end Threads

namespace Queues

/-- Where the registered threads are. -/
def places (q : Queues) : List Thread := q.active.toList ++ q.ready ++ q.terminated ++ q.dropped

/-- Threads that have left for good. -/
def Gone (q : Queues) (thread : Thread) : Prop := thread ∈ q.terminated ∨ thread ∈ q.dropped

end Queues

namespace Move
variable {op : Op} {q q' : Queues}

/-- Moving loses and doubles no thread; only `ready` brings a new one. -/
theorem places_perm (h : Move op q q') :
    ((match op with | .ready thread => [thread] | _ => []) ++ q.places).Perm q'.places := by
  rw [List.perm_iff_count]
  intro x
  cases h with
  | create | schedule | stay | miss => rfl
  | ready thread | cleanup =>
    simp only [Queues.places, List.count_append, List.count_cons, List.count_nil]
    omega
  | yield _ c n rest hi ha hr | exit _ c n rest ha hr =>
    simp only [Queues.places, ha, hr, Option.toList_some, List.count_append, List.count_cons, List.count_nil]
    omega
  | kill _ pre victim post hr hpre =>
    simp only [Queues.places, hr, List.count_append, List.count_cons, List.count_nil]
    omega

theorem active_some (h : Move op q q') (ha : ∃ a, q.active = some a) : ∃ a, q'.active = some a := by
  cases h with
  | yield _ c n rest _ _ _ | exit _ c n rest _ _ => exact ⟨n,rfl⟩
  | _ => exact ha

/-- Threads are dropped out of the ready queue by `kill` or out of the terminated queue by the
cleanup. -/
theorem dropped_cases (h : Move op q q') {thread : Thread} (hm : thread ∈ q'.dropped) :
    thread ∈ q.dropped ∨ (op = .kill thread.id ∧ thread ∈ q.ready) ∨
      (op = .cleanup ∧ thread ∈ q.terminated) := by
  cases h with
  | kill _ pre victim post hr hpre =>
    rcases List.mem_cons.mp hm with rfl | hm
    · exact .inr (.inl ⟨rfl,by rw [hr]; simp⟩)
    · exact .inl hm
  | cleanup =>
    rcases List.mem_append.mp hm with hm | hm
    · exact .inr (.inr ⟨rfl,hm⟩)
    · exact .inl hm
  | _ => exact .inl hm

/-- Only `exit` of the active thread terminates a thread. -/
theorem terminated_cases (h : Move op q q') {thread : Thread} (hm : thread ∈ q'.terminated) :
    thread ∈ q.terminated ∨ (op = .exit ∧ q.active = some thread) := by
  cases h with
  | exit _ c n rest ha hr =>
    rcases List.mem_append.mp hm with hm | hm
    · exact .inl hm
    · rw [List.mem_singleton.mp hm]
      exact .inr ⟨rfl,ha⟩
  | cleanup => cases hm
  | _ => exact .inl hm

theorem gone (h : Move op q q') {thread : Thread} (hg : q.Gone thread) : q'.Gone thread := by
  cases h with
  | exit => exact hg.imp (fun hm => List.mem_append_left _ hm) id
  | kill => exact hg.imp id fun hm => List.mem_cons_of_mem _ hm
  | cleanup => exact .inr (List.mem_append.mpr hg)
  | _ => exact hg

end Move

namespace Threads

/-- There is an active thread, every registered thread is in exactly one place, and all ids are
below the counter. -/
structure Inv (t : Threads) : Prop where
  active : ∃ a, t.queues.active = some a
  perm : t.registered.Perm t.queues.places
  nodup : (t.registered ++ t.unregistered).Nodup
  bound : ∀ x ∈ t.registered ++ t.unregistered, x.id < t.counter

theorem inv_init {t : Threads} (h : system.init t) : Inv t := by
  obtain ⟨k,_,rfl⟩ := h
  refine ⟨⟨⟨k⟩,rfl⟩,.refl _,?_,?_⟩
  · refine List.nodup_cons.mpr ⟨by simp,?_⟩
    exact List.nodup_range.map fun a b hab => by simpa using hab
  · intro x hx
    rcases List.mem_cons.mp hx with rfl | hx
    · exact Nat.lt_succ_self k
    · obtain ⟨i,hi,rfl⟩ := List.mem_map.mp hx
      exact Nat.lt_succ_of_lt (List.mem_range.mp hi)

/-- Only `create` and `ready` touch the records of what was created and registered. -/
theorem records {t t' : Threads} {op : Op} (hs : system.step t op t') :
    (op = .create ∧ t'.registered = t.registered ∧ t'.unregistered = ⟨t.counter⟩ :: t.unregistered ∧
      t'.counter = t.counter + 1) ∨
    (∃ thread, op = .ready thread ∧ thread ∈ t.unregistered ∧ t'.registered = thread :: t.registered ∧
      t'.unregistered = t.unregistered.erase thread ∧ t'.counter = t.counter) ∨
    ((∀ thread, op ≠ .ready thread) ∧ t'.registered = t.registered ∧ t'.unregistered = t.unregistered ∧
      t'.counter = t.counter) := by
  obtain ⟨hadm,he⟩ := hs
  cases op with
  | create =>
    have hmod : (t.counter + 1) % 2^64 = t.counter + 1 := Nat.mod_eq_of_lt hadm
    simp only [exec, nextId, hmod, Except.ok.injEq] at he
    subst he
    exact .inl ⟨rfl,rfl,rfl,rfl⟩
  | ready thread =>
    cases he
    exact .inr (.inl ⟨thread,rfl,hadm,rfl,rfl,rfl⟩)
  | kill id | cleanup =>
    cases he
    exact .inr (.inr ⟨by simp,rfl,rfl,rfl⟩)
  | schedule =>
    obtain ⟨_,_,rfl⟩ := state_of_ok he
    exact .inr (.inr ⟨by simp,rfl,rfl,rfl⟩)
  | yieldCpu b =>
    obtain ⟨_,_,rfl⟩ := state_of_ok he
    exact .inr (.inr ⟨by simp,rfl,rfl,rfl⟩)
  | exit =>
    obtain ⟨_,_,rfl⟩ := state_of_ok he
    exact .inr (.inr ⟨by simp,rfl,rfl,rfl⟩)

theorem inv_step {t t' : Threads} {op : Op} (h : Inv t) (hs : system.step t op t') : Inv t' := by
  have hm := step_move hs
  have hp := hm.places_perm
  have ha := hm.active_some h.active
  rcases records hs with ⟨rfl,hr,hu,hc⟩ | ⟨thread,rfl,hmem,hr,hu,hc⟩ | ⟨hop,hr,hu,hc⟩
  · have hnew : ⟨t.counter⟩ ∉ t.registered ++ t.unregistered := fun hm => Nat.lt_irrefl _ (h.bound _ hm)
    refine ⟨ha,hr ▸ h.perm.trans hp,?_,?_⟩
    · rw [hr,hu]
      exact List.nodup_middle.mpr (List.nodup_cons.mpr ⟨hnew,h.nodup⟩)
    · rw [hr,hu,hc]
      intro x hx
      rcases List.mem_cons.mp (List.perm_middle.mem_iff.mp hx) with rfl | hx
      · exact Nat.lt_succ_self _
      · exact Nat.lt_succ_of_lt (h.bound x hx)
  · have hq : (t.registered ++ t.unregistered).Perm (t'.registered ++ t'.unregistered) := by
      rw [hr,hu]
      exact ((List.perm_cons_erase hmem).append_left _).trans List.perm_middle
    refine ⟨ha,?_,hq.nodup_iff.mp h.nodup,?_⟩
    · rw [hr]
      exact (h.perm.cons thread).trans hp
    · rw [hc]
      exact fun x hx => h.bound x (hq.mem_iff.mpr hx)
  · have hp' : t.queues.places.Perm t'.queues.places := by
      cases op with
      | ready thread => exact absurd rfl (hop thread)
      | _ => exact hp
    refine ⟨ha,hr ▸ h.perm.trans hp',?_,?_⟩
    · rw [hr,hu]
      exact h.nodup
    · rw [hr,hu,hc]
      exact h.bound

theorem inv_run {t t' : Threads} {ops : List Op} (h : Inv t) (hr : System.Run system t ops t') : Inv t' :=
  hr.invariant (fun _ _ _ hi hs => inv_step hi hs) h

theorem gone_run {t t' : Threads} {ops : List Op} {thread : Thread} (hg : t.queues.Gone thread)
    (hr : System.Run system t ops t') : t'.queues.Gone thread :=
  hr.invariant (P := fun t => t.queues.Gone thread) (fun _ _ _ hg hs => (step_move hs).gone hg) hg

theorem Inv.places_nodup {t : Threads} (h : Inv t) : t.queues.places.Nodup :=
  h.perm.nodup_iff.mp (List.nodup_append.mp h.nodup).1

/-- A thread that is gone is neither active nor ready. -/
theorem Inv.not_gone {t : Threads} (h : Inv t) {thread : Thread} (hg : t.queues.Gone thread) :
    t.queues.active ≠ some thread ∧ thread ∉ t.queues.ready := by
  have hn := h.places_nodup
  rw [Queues.places,List.append_assoc] at hn
  have hd := (List.nodup_append.mp hn).2.2
  have hmem : thread ∈ t.queues.terminated ++ t.queues.dropped := List.mem_append.mpr hg
  constructor
  · intro ha
    exact hd thread (by rw [ha]; simp) thread hmem rfl
  · intro hr
    exact hd thread (by simp [hr]) thread hmem rfl

/-- In every run from `Scheduler::new` there is an active thread and every registered thread is in
exactly one of the active slot, the two queues and the dropped threads. A step drops a thread only
by `kill` out of the ready queue or by the cleanup after its `exit`, and a thread that is terminated
or dropped never becomes active or ready again. -/
theorem threads_conserved {t : Threads} (hr : system.Reachable t) :
    (∃ a, t.state.activeThread = some a ∧
      ((a :: t.state.ready ++ t.state.terminated).map Thread.id).Nodup) ∧
    t.registered.Nodup ∧
    t.registered.Perm (t.state.activeThread.toList ++ t.state.ready ++ t.state.terminated ++ t.dropped) ∧
    (∀ op t', system.step t op t' →
      (∀ x ∈ t'.dropped, x ∈ t.dropped ∨ t.state.activeThread ≠ some x ∧
        ((op = .kill x.id ∧ x ∈ t.state.ready) ∨ (op = .cleanup ∧ x ∈ t.state.terminated))) ∧
      (∀ x ∈ t'.state.terminated, x ∈ t.state.terminated ∨ (op = .exit ∧ t.state.activeThread = some x))) ∧
    ∀ x, x ∈ t.state.terminated ∨ x ∈ t.dropped → ∀ ops t', System.Run system t ops t' →
      t'.state.activeThread ≠ some x ∧ x ∉ t'.state.ready := by
  have h : Inv t := hr.invariant (fun _ hi => inv_init hi) (fun _ _ _ hi hs => inv_step hi hs)
  have hn := h.places_nodup
  obtain ⟨a,ha⟩ := h.active
  have ha' : t.state.activeThread = some a := ha
  refine ⟨⟨a,ha',?_⟩,(List.nodup_append.mp h.nodup).1,h.perm,?_,?_⟩
  · rw [Queues.places,ha] at hn
    refine (List.nodup_append.mp hn).1.map ?_
    rintro ⟨i⟩ ⟨j⟩ rfl
    rfl
  · intro op t' hs
    have hm := step_move hs
    refine ⟨fun x hx => ?_,fun x hx => hm.terminated_cases hx⟩
    rcases hm.dropped_cases hx with hx | ⟨hop,hx⟩ | ⟨hop,hx⟩
    · exact .inl hx
    · refine .inr ⟨?_,.inl ⟨hop,hx⟩⟩
      intro hax
      rw [Queues.places,show t.queues.active = some x from hax,List.append_assoc,List.append_assoc] at hn
      exact (List.nodup_append.mp hn).2.2 x (by simp) x (List.mem_append_left _ hx) rfl
    · exact .inr ⟨(h.not_gone (.inl hx)).1,.inr ⟨hop,hx⟩⟩
  · intro x hx ops t' hrun
    exact (inv_run h hrun).not_gone (gone_run hx hrun)

/-- The scheduler behind `Scheduler::new` on a fresh counter. -/
def sample : Threads := ⟨Scheduler.new ⟨0⟩,1,[],[⟨0⟩],[]⟩

/-- Four threads later: 1 and 2 have called `exit` with a cleanup between them, and 3 was killed in the queue. -/
def sampleMoved : Threads :=
  ⟨⟨some ⟨4⟩,⟨.node ⟨0⟩ .none⟩,⟨.node ⟨2⟩ .none⟩,true⟩,5,[],[⟨4⟩,⟨3⟩,⟨2⟩,⟨1⟩,⟨0⟩],[⟨3⟩,⟨1⟩]⟩

private theorem sampleMoved_reachable : system.Reachable sampleMoved := by
  have hadmissible (n : Nat) (h : n + 1 < 2^64) (state : SchedulerState) (registered : List Thread) :
      Admissible ⟨state,n,[],registered,[]⟩ .create := h
  have hmem (state : SchedulerState) (n i : Nat) (registered : List Thread) :
      Admissible ⟨state,n,[⟨i⟩],registered,[]⟩ (.ready ⟨i⟩) := List.mem_singleton.mpr rfl
  refine ⟨sample,[.schedule,.create,.ready ⟨1⟩,.create,.ready ⟨2⟩,.create,.ready ⟨3⟩,.create,.ready ⟨4⟩,.yieldCpu false,
    .exit,.cleanup,.kill 3,.exit],⟨0,by decide,rfl⟩,?_⟩
  exact .cons ⟨trivial,rfl⟩ (.cons ⟨hadmissible 1 (by decide) _ _,rfl⟩ (.cons ⟨hmem _ 2 1 _,rfl⟩
    (.cons ⟨hadmissible 2 (by decide) _ _,rfl⟩ (.cons ⟨hmem _ 3 2 _,rfl⟩ (.cons ⟨hadmissible 3 (by decide) _ _,rfl⟩
    (.cons ⟨hmem _ 4 3 _,rfl⟩ (.cons ⟨hadmissible 4 (by decide) _ _,rfl⟩ (.cons ⟨hmem _ 5 4 _,rfl⟩
    (.cons ⟨trivial,rfl⟩ (.cons ⟨trivial,rfl⟩ (.cons ⟨trivial,rfl⟩ (.cons ⟨trivial,rfl⟩
    (.cons ⟨trivial,rfl⟩ (.nil _))))))))))))))

/-- Each of the five threads is in its place, and thread 2 never runs again. -/
theorem threads_conserved_sample : system.Reachable sampleMoved ∧
    [4,3,2,1,0].Perm (((sampleMoved.state.activeThread.toList ++ sampleMoved.state.ready ++
      sampleMoved.state.terminated ++ sampleMoved.dropped)).map Thread.id) ∧
    ∀ ops t', System.Run system sampleMoved ops t' → t'.state.activeThread ≠ some ⟨2⟩ ∧ ⟨2⟩ ∉ t'.state.ready := by
  have h := threads_conserved sampleMoved_reachable
  exact ⟨sampleMoved_reachable,h.2.2.1.map Thread.id,h.2.2.2.2 ⟨2⟩ (.inl (List.mem_singleton.mpr rfl))⟩

end Threads

end HeineOS.Scheduler
