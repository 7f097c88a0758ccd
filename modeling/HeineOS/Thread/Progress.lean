import HeineOS.Thread.Conservation
import Mathlib.Data.List.Rotate

/-! Whether `exit` finds a next thread, which rests on the idle thread, and the order in which the
ready threads become active. -/
namespace HeineOS.Scheduler
open Lib

namespace Move
variable {op : Op} {q q' : Queues} {x : Thread}

/-- A thread that is active or ready stays so unless it exits or is killed in the queue. -/
theorem keeps (h : Move op q q') (hx : q.active = some x ∨ x ∈ q.ready)
    (hexit : op = .exit → q.active ≠ some x) (hkill : op = .kill x.id → x ∉ q.ready) :
    q'.active = some x ∨ x ∈ q'.ready := by
  cases h with
  | create | schedule | stay | miss | cleanup => exact hx
  | ready thread => exact hx.imp id fun hm => List.mem_append_left _ hm
  | yield _ c n rest hi ha hr =>
    rw [ha,hr] at hx
    rcases hx with hx | hx
    · exact .inr (by rw [← Option.some.inj hx]; simp)
    · rcases List.mem_cons.mp hx with rfl | hx
      · exact .inl rfl
      · exact .inr (List.mem_append_left _ hx)
  | exit _ c n rest ha hr =>
    rw [hr] at hx
    rcases hx with hx | hx
    · exact absurd hx (hexit rfl)
    · rcases List.mem_cons.mp hx with rfl | hx
      · exact .inl rfl
      · exact .inr hx
  | kill _ pre victim post hr hpre =>
    rcases hx with hx | hx
    · exact .inl hx
    · refine .inr ?_
      have hne : x ≠ victim := by
        intro he
        exact hkill (by rw [he]) hx
      rw [hr,List.mem_append,List.mem_cons] at hx
      rcases hx with hx | hx | hx
      · exact List.mem_append_left _ hx
      · exact absurd hx hne
      · exact List.mem_append_right _ hx

/-- A queued thread that `kill` names is dropped. -/
theorem killed (h : Move (.kill x.id) q q') (hx : x ∈ q.ready) : x ∈ q'.dropped := by
  generalize hop : Op.kill x.id = op at h
  cases h with
  | miss _ id hmiss =>
    cases hop
    exact absurd rfl (hmiss x hx)
  | kill _ pre victim post hr hpre =>
    have hid : x.id = victim.id := by simpa using hop
    have hv : x = victim := by
      cases x
      cases victim
      simpa using hid
    rw [hv]
    exact List.mem_cons_self
  | _ => cases hop

end Move

namespace Threads

/-- Runs in which the idle thread never calls `exit`. -/
def idleSystem (idle : Thread) : System Threads Op where
  init t := idle.id + 1 < 2^64 ∧
    t = ⟨Scheduler.new idle,idle.id + 1,(List.range idle.id).map Thread.mk,[idle],[]⟩
  step t op t' := (op = .exit → t.state.activeThread ≠ some idle) ∧ system.step t op t'

/-- The idle thread is active or in the ready queue. -/
def IdlePresent (idle : Thread) (t : Threads) : Prop :=
  t.state.activeThread = some idle ∨ idle ∈ t.state.ready

/-- Whenever another thread is active, `exit` finds a thread in the ready queue. -/
def ExitFinds (idle : Thread) (t : Threads) : Prop :=
  ∀ a, t.state.activeThread = some a → a ≠ idle →
    t.state.ready ≠ [] ∧ Scheduler.exit t.state ≠ .error .emptyReadyQueue

/-- No `kill` names the idle thread while it is queued. -/
def SparesIdle (idle : Thread) (t : Threads) (op : Op) : Prop :=
  op = .kill idle.id → idle ∉ t.state.ready

theorem idleSystem_inv {idle : Thread} {t : Threads} (hr : (idleSystem idle).Reachable t) : Inv t := by
  refine hr.invariant (P := Inv) ?_ ?_
  · exact fun t hi => inv_init ⟨idle.id,hi⟩
  · exact fun t op t' hi hs => inv_step hi hs.2

theorem exitFinds {idle : Thread} {t : Threads} (hp : IdlePresent idle t) : ExitFinds idle t := by
  intro a ha hne
  have hm : idle ∈ t.state.ready := by
    rcases hp with hp | hp
    · rw [ha] at hp
      exact absurd (Option.some.inj hp) hne
    · exact hp
  have hnil : t.state.ready ≠ [] := List.ne_nil_of_mem hm
  refine ⟨hnil,?_⟩
  rcases exit_cases t.state with ⟨he,_⟩ | ⟨_,hr⟩ | ⟨c,n,s',he,_⟩
  · rw [he]
    exact fun h => by cases h
  · exact absurd hr hnil
  · rw [he]
    exact fun h => by cases h

/-- As long as no step kills the queued idle thread, it is active or ready and `exit` of any other
thread finds a next one; a step that kills it loses it. -/
theorem exit_finds_next (idle : Thread) {t : Threads}
    (hr : ((idleSystem idle).restrict (SparesIdle idle)).Reachable t) :
    (IdlePresent idle t ∧ ExitFinds idle t) ∧
    ∀ op t', (idleSystem idle).step t op t' → (IdlePresent idle t' ↔ SparesIdle idle t op) := by
  have hp : IdlePresent idle t := by
    refine hr.invariant (P := IdlePresent idle) ?_ ?_
    · rintro t ⟨_,rfl⟩
      exact .inl rfl
    · rintro t op t' hp ⟨hspare,hexit,hs⟩
      exact (step_move hs).keeps hp hexit hspare
  refine ⟨⟨hp,exitFinds hp⟩,?_⟩
  intro op t' hs
  have hinv : Inv t' := inv_step (idleSystem_inv hr.of_restrict) hs.2
  constructor
  · intro hp' hop hm
    subst hop
    have hg := hinv.not_gone (.inr ((step_move hs.2).killed hm))
    rcases hp' with hp' | hp'
    · exact hg.1 hp'
    · exact hg.2 hp'
  · intro hspare
    exact (step_move hs.2).keeps hp hs.1 hspare

/-- Thread 1 runs, the idle thread waits, and thread 2 was killed in the queue. -/
def sampleSpared : Threads := ⟨⟨some ⟨1⟩,⟨.node ⟨0⟩ .none⟩,.new,true⟩,3,[],[⟨2⟩,⟨1⟩,⟨0⟩],[⟨2⟩]⟩

private theorem sampleSpared_reachable :
    ((idleSystem ⟨0⟩).restrict (SparesIdle ⟨0⟩)).Reachable sampleSpared := by
  have hcreate (n : Nat) (h : n + 1 < 2^64) (state : SchedulerState) (registered : List Thread) :
      Admissible ⟨state,n,[],registered,[]⟩ .create := h
  have hready (state : SchedulerState) (n i : Nat) (registered : List Thread) :
      Admissible ⟨state,n,[⟨i⟩],registered,[]⟩ (.ready ⟨i⟩) := List.mem_singleton.mpr rfl
  refine ⟨sample,[.schedule,.create,.ready ⟨1⟩,.create,.ready ⟨2⟩,.yieldCpu false,.kill 2],⟨by decide,rfl⟩,?_⟩
  exact .cons ⟨by simp [SparesIdle],by simp,trivial,rfl⟩
    (.cons ⟨by simp [SparesIdle],by simp,hcreate 1 (by decide) _ _,rfl⟩
    (.cons ⟨by simp [SparesIdle],by simp,hready _ 2 1 _,rfl⟩
    (.cons ⟨by simp [SparesIdle],by simp,hcreate 2 (by decide) _ _,rfl⟩
    (.cons ⟨by simp [SparesIdle],by simp,hready _ 3 2 _,rfl⟩
    (.cons ⟨by simp [SparesIdle],by simp,trivial,rfl⟩
    (.cons ⟨by simp [SparesIdle],by simp,trivial,rfl⟩ (.nil _)))))))

/-- Thread 1 can exit; a `kill` of the idle thread would lose it. -/
theorem exit_finds_next_sample : ((idleSystem ⟨0⟩).restrict (SparesIdle ⟨0⟩)).Reachable sampleSpared ∧
    sampleSpared.state.activeThread = some ⟨1⟩ ∧
    Scheduler.exit sampleSpared.state ≠ .error .emptyReadyQueue ∧
    ∀ t', (idleSystem ⟨0⟩).step sampleSpared (.kill 0) t' → ¬ IdlePresent ⟨0⟩ t' := by
  have h := exit_finds_next ⟨0⟩ sampleSpared_reachable
  refine ⟨sampleSpared_reachable,rfl,(h.1.2 ⟨1⟩ rfl (by decide)).2,?_⟩
  intro t' hs hpresent
  exact (h.2 _ t' hs).mp hpresent rfl (List.mem_singleton.mpr rfl)

/-- Thread 1 runs while the idle thread 0 is queued and killed: its `exit` panics. -/
theorem exit_finds_next_fails : ¬ ∀ (idle : Thread) (t : Threads), (idleSystem idle).Reachable t →
    IdlePresent idle t ∧ ExitFinds idle t := by
  intro h
  have hr : (idleSystem ⟨0⟩).Reachable
      ⟨⟨some ⟨1⟩,.new,.new,true⟩,2,[],[⟨1⟩,⟨0⟩],[⟨0⟩]⟩ := by
    refine ⟨sample,[.schedule,.create,.ready ⟨1⟩,.yieldCpu false,.kill 0],⟨by decide,rfl⟩,?_⟩
    have hcreate : (1 : Nat) + 1 < 2^64 := by decide
    refine .cons ⟨by simp,trivial,rfl⟩ (.cons ⟨by simp,hcreate,rfl⟩ (.cons ⟨by simp,?_,rfl⟩
      (.cons ⟨by simp,trivial,rfl⟩ (.cons ⟨by simp,trivial,rfl⟩ (.nil _)))))
    exact List.mem_singleton.mpr rfl
  exact ((h ⟨0⟩ _ hr).2 ⟨1⟩ rfl (by decide)).1 rfl

end Threads

/-- A `yield_cpu` with a ready thread and every `exit` are context switches. -/
def Queues.isSwitch (q : Queues) : Op → Bool
  | .yieldCpu _ => !q.ready.isEmpty
  | .exit => true
  | _ => false

/-- A `yield_cpu` finds the scheduler initialised and the allocator unlocked. -/
def Queues.Yields (q : Queues) (op : Op) : Prop := ∀ b, op = .yieldCpu b → b = false ∧ q.initialized = true

/-- The thread is not killed while it waits in the queue. -/
def Queues.Spares (q : Queues) (x : Thread) (op : Op) : Prop := op = .kill x.id → x ∉ q.ready

/-- What one operation does to the thread at index `k` of the ready queue, and to the others. -/
structure Served (q q' : Queues) (op : Op) (x : Thread) (k : Nat) : Prop where
  switch : q.isSwitch op = true →
    (k = 0 ∧ q'.active = some x) ∨ ∃ j, k = j + 1 ∧ q'.ready[j]? = some x
  wait : q.isSwitch op = false → ∃ j, j ≤ k ∧ q'.ready[j]? = some x
  ready : ∀ y, op = .ready y → q'.ready = q.ready ++ [y]
  kill : ∀ id, op = .kill id → q'.ready = q.ready.filter fun y => y.id != id

private theorem served_front {x n : Thread} {rest : List Thread} {k : Nat} (hx : (n :: rest)[k]? = some x)
    (tail : List Thread) : (k = 0 ∧ some n = some x) ∨ ∃ j, k = j + 1 ∧ (rest ++ tail)[j]? = some x := by
  cases k with
  | zero => exact .inl ⟨rfl,hx⟩
  | succ j =>
    refine .inr ⟨j,rfl,?_⟩
    have hj : rest[j]? = some x := hx
    rw [List.getElem?_append_left (List.getElem?_eq_some_iff.mp hj).1,hj]

private theorem index_without {x v : Thread} {pre post : List Thread} {k : Nat}
    (hx : (pre ++ v :: post)[k]? = some x) (hne : x ≠ v) : ∃ j, j ≤ k ∧ (pre ++ post)[j]? = some x := by
  by_cases hk : k < pre.length
  · rw [List.getElem?_append_left hk] at hx
    exact ⟨k,le_rfl,by rw [List.getElem?_append_left hk,hx]⟩
  · rw [List.getElem?_append_right (Nat.le_of_not_lt hk)] at hx
    obtain ⟨j,hj⟩ : ∃ j, k - pre.length = j := ⟨_,rfl⟩
    rw [hj] at hx
    cases j with
    | zero => exact absurd (Option.some.inj hx).symm hne
    | succ j =>
      refine ⟨pre.length + j,by omega,?_⟩
      rw [List.getElem?_append_right (Nat.le_add_right _ _),Nat.add_sub_cancel_left]
      exact hx

private theorem filter_victim {pre post : List Thread} {v : Thread} (hn : (pre ++ v :: post).Nodup) :
    (pre ++ v :: post).filter (fun y => y.id != v.id) = pre ++ post := by
  have hv := (List.nodup_cons.mp (List.nodup_middle.mp hn)).1
  have hkeep : ∀ y ∈ pre ++ post, (y.id != v.id) = true := by
    intro y hy
    rw [bne_iff_ne]
    intro he
    have hyv : y = v := by
      cases y
      cases v
      simpa using he
    exact hv (hyv ▸ hy)
  rw [List.filter_append,List.filter_cons_of_neg (by simp),← List.filter_append,List.filter_eq_self.mpr hkeep]

theorem Move.served {op : Op} {q q' : Queues} {x : Thread} {k : Nat} (h : Move op q q')
    (hn : q.ready.Nodup) (hy : q.Yields op) (hspare : q.Spares x op) (hx : q.ready[k]? = some x) :
    Served q q' op x k := by
  have hmem : x ∈ q.ready := List.mem_of_getElem? hx
  have hne : q.ready ≠ [] := List.ne_nil_of_mem hmem
  cases h with
  | create | schedule | cleanup =>
    exact ⟨fun h => (by cases h),fun _ => ⟨k,le_rfl,hx⟩,fun y h => (by cases h),fun id h => (by cases h)⟩
  | ready thread =>
    refine ⟨fun h => (by cases h),fun _ => ⟨k,le_rfl,?_⟩,?_,fun id h => (by cases h)⟩
    · rw [List.getElem?_append_left (List.getElem?_eq_some_iff.mp hx).1,hx]
    · rintro y ⟨⟩
      rfl
  | stay _ b hb =>
    obtain ⟨h1,h2⟩ := hy b rfl
    rcases hb with hb | hb | hb
    · rw [h2] at hb
      cases hb
    · rw [h1] at hb
      cases hb
    · exact absurd hb hne
  | yield _ c n rest hi ha hr =>
    rw [hr] at hx
    refine ⟨fun _ => served_front hx [c],?_,fun y h => (by cases h),fun id h => (by cases h)⟩
    intro h
    rw [Queues.isSwitch,hr] at h
    cases h
  | exit _ c n rest ha hr =>
    rw [hr] at hx
    refine ⟨fun _ => ?_,fun h => (by cases h),fun y h => (by cases h),fun id h => (by cases h)⟩
    have := served_front hx []
    rwa [List.append_nil] at this
  | miss _ id hmiss =>
    refine ⟨fun h => (by cases h),fun _ => ⟨k,le_rfl,hx⟩,fun y h => (by cases h),?_⟩
    rintro id' ⟨⟩
    rw [List.filter_eq_self.mpr]
    exact fun y hy => by simpa using hmiss y hy
  | kill _ pre victim post hr hpre =>
    have hv : x ≠ victim := fun he => hspare (by rw [he]) hmem
    rw [hr] at hx hn
    refine ⟨fun h => (by cases h),fun _ => index_without hx hv,fun y h => (by cases h),?_⟩
    rintro id' ⟨⟩
    rw [hr,filter_victim hn]

namespace Threads

/-- The number of context switches along a run. -/
def switches (t : Threads) : List Op → Nat
  | [] => 0
  | op :: ops =>
    (if t.queues.isSwitch op then 1 else 0) +
      match t.exec op with
      | .ok t' => t'.switches ops
      | .error _ => 0

theorem Inv.ready_nodup {t : Threads} (h : Inv t) : t.queues.ready.Nodup := by
  have hn := h.places_nodup
  rw [Queues.places,List.append_assoc,List.append_assoc] at hn
  exact (List.nodup_append.mp (List.nodup_append.mp hn).2.1).1

/-- Call `yield_cpu` a number of times. -/
def yields : Nat → Threads → Except Panic Threads
  | 0, t => .ok t
  | n + 1, t => do yields n (← t.exec (.yieldCpu false))

/-- The active thread and behind it the ready queue. -/
def ring (t : Threads) : List Thread := t.queues.active.toList ++ t.queues.ready

/-- One `yield_cpu` rotates the ring by one place and changes nothing else. -/
theorem yield_rotates {t : Threads} {a : Thread} (ha : t.state.activeThread = some a)
    (hi : t.state.initialized = true) :
    ∃ a' s', t.exec (.yieldCpu false) = .ok { t with state := s' } ∧ s'.activeThread = some a' ∧
      s'.initialized = true ∧ s'.terminatedThreads = t.state.terminatedThreads ∧
      ring { t with state := s' } = t.ring.rotate 1 := by
  rcases yieldCpu_cases t.state false with ⟨he,hstay⟩ | ⟨_,hnone⟩ | ⟨c,n,rest,s',he,_,_,hc,hr,ha',hr',ht',hi'⟩
  · have hnil : t.state.ready = [] := by
      rcases hstay with h | h | h
      · rw [hi] at h
        cases h
      · cases h
      · exact h
    refine ⟨a,t.state,?_,ha,hi,rfl,?_⟩
    · simp only [exec, he, bind, Except.bind, pure, Except.pure]
    · simp only [ring, queues, ha, hnil, Option.toList_some, List.append_nil, List.rotate_singleton]
  · rw [ha] at hnone
    cases hnone
  · refine ⟨n,s',?_,ha',hi'.trans hi,ht',?_⟩
    · simp only [exec, he, bind, Except.bind, pure, Except.pure]
    · simp only [ring, queues, hc, hr, ha', hr', Option.toList_some, List.rotate_cons_succ, List.rotate_zero,
        List.cons_append, List.nil_append]

/-- Thread 1 waits behind the active idle thread. -/
def sampleReady : Threads := ⟨⟨some ⟨0⟩,⟨.node ⟨1⟩ .none⟩,.new,true⟩,2,[],[⟨1⟩,⟨0⟩],[]⟩

end Threads

end HeineOS.Scheduler
