import HeineOS.Kernel.Invariant

/-! Where the threads are, step by step of an operation on the scheduler. -/
namespace HeineOS.Kernel
open Lib Scheduler

namespace Machine
variable {m m' : Machine} {φ φ' : Phase}

namespace Settled

theorem thread (h : m.Settled) (ht : m.cur.isThread = true) :
    ∃ a, m.state.activeThread = some a ∧ m.cur = .thread a ∧ m.state.initialized = true := by
  rcases h with h | ⟨_,hb,_⟩
  · exact h
  · rw [hb] at ht
    cases ht

theorem boot (h : m.Settled) (hb : m.cur.isThread = false) :
    m.state.activeThread.isSome = true ∧ m.cur = .boot ∧ m.state.initialized = false := by
  rcases h with ⟨_,_,ht,_⟩ | h
  · rw [ht] at hb
    cases hb
  · exact h

theorem isSome (h : m.Settled) : m.state.activeThread.isSome = true := by
  rcases h with ⟨a,ha,_⟩ | ⟨ha,_⟩
  · rw [ha]; rfl
  · exact ha

theorem initialized (h : m.Settled) : m.state.initialized = m.cur.isThread := by
  rcases h with ⟨_,_,hc,hi⟩ | ⟨_,hc,hi⟩
  · rw [hc,hi]; rfl
  · rw [hc,hi]; rfl

theorem congr (h : m.Settled) (ha : m'.state.activeThread = m.state.activeThread) (hc : m'.cur = m.cur)
    (hi : m'.state.initialized = m.state.initialized) : m'.Settled := by
  rw [Settled,ha,hc,hi]
  exact h

end Settled

section
variable {c n t : Thread} {next : Option Thread}

@[simp] private theorem hand_rest : Phase.rest.hand = [] := rfl
@[simp] private theorem hand_popped : (Phase.popped n).hand = [n] := rfl
@[simp] private theorem hand_taken : (Phase.taken c next).hand = c :: next.toList := rfl
@[simp] private theorem hand_placed : (Phase.placed c n).hand = [c] := rfl
@[simp] private theorem hand_left : (Phase.left c n).hand = [] := rfl
@[simp] private theorem hand_gone : (Phase.gone c n).hand = [] := rfl
@[simp] private theorem hand_dropping : (Phase.dropping t).hand = [t] := rfl

end

/-- How often a thread is somewhere. -/
def count (m : Machine) (φ : Phase) (t : Thread) : Nat :=
  φ.hand.count t + m.state.activeThread.toList.count t + m.state.readyQueue.toList.count t +
    m.state.terminatedThreads.toList.count t + m.dropped.count t

theorem count_threads (m : Machine) (φ : Phase) (t : Thread) : (m.threads φ).count t = m.count φ t := by
  simp only [threads, count, SchedulerState.ready, SchedulerState.terminated, List.count_append, Nat.add_assoc]

namespace Owned

/-- A step that only moves threads around. -/
theorem of_count (h : m.Owned φ) (hcount : ∀ t, m'.count φ' t = m.count φ t) (hs : m'.stack = m.stack)
    (hslot : m'.Slot φ') : m'.Owned φ' := by
  have hp : (m'.threads φ').Perm (m.threads φ) := by
    apply List.perm_iff_count.mpr
    intro t
    rw [count_threads,count_threads,hcount t]
  exact ⟨hslot,hp.nodup_iff.mpr h.nodup,fun t => hs ▸ hp.mem_iff.trans (h.known t)⟩

theorem setInitialized (h : m.Owned .rest) (hb : m.cur.isThread = false) :
    (m.setState { m.state with initialized := true }).Owned .starting := by
  obtain ⟨ha,hc,_⟩ := Settled.boot h.slot hb
  exact h.of_count (fun _ => rfl) rfl ⟨ha,hc,rfl⟩

theorem active {t : Thread} (h : m.Owned .starting) (ha : m.state.activeThread = some t) :
    m.Owned (.started t) :=
  h.of_count (fun _ => rfl) rfl ⟨ha,h.slot.2⟩

theorem takeActive {c : Thread} (h : m.Owned .rest) (ht : m.cur.isThread = true)
    (ha : m.state.activeThread = some c) :
    (m.setState { m.state with activeThread := none }).Owned (.taken c none) := by
  obtain ⟨a,ha',hc,hi⟩ := Settled.thread h.slot ht
  obtain rfl : a = c := Option.some.inj (ha'.symm.trans ha)
  refine h.of_count (fun t => ?_) rfl ⟨rfl,hc,hi⟩
  simp [count, setState, hand_rest, hand_taken, ha]

theorem takeActive_popped {c n : Thread} (h : m.Owned (.popped n)) (ht : m.cur.isThread = true)
    (ha : m.state.activeThread = some c) :
    (m.setState { m.state with activeThread := none }).Owned (.taken c (some n)) := by
  obtain ⟨a,ha',hc,hi⟩ := Settled.thread h.slot ht
  obtain rfl : a = c := Option.some.inj (ha'.symm.trans ha)
  refine h.of_count (fun t => ?_) rfl ⟨rfl,hc,hi⟩
  simp only [count, setState, hand_popped, hand_taken, ha, Option.toList_some, Option.toList_none, List.count_cons,
    List.count_nil]
  omega

theorem setActive {c n : Thread} (h : m.Owned (.taken c (some n))) :
    (m.setState { m.state with activeThread := some n }).Owned (.placed c n) := by
  obtain ⟨ha,hc,hi⟩ := h.slot
  refine h.of_count (fun t => ?_) rfl ⟨rfl,hc,hi⟩
  simp only [count, setState, hand_taken, hand_placed, ha, Option.toList_some, Option.toList_none, List.count_cons,
    List.count_nil]
  omega

theorem enqueueReady {c n : Thread} (h : m.Owned (.placed c n)) :
    (m.setState { m.state with readyQueue := m.state.readyQueue.enqueue c }).Owned (.left c n) := by
  obtain ⟨ha,hc,hi⟩ := h.slot
  have hq := LinkedQueue.toList_enqueue m.state.readyQueue c
  refine h.of_count (fun t => ?_) rfl ⟨ha,hc,hi,?_⟩
  · simp only [count, setState, hand_placed, hand_left, hq, List.count_append, List.count_nil]
    omega
  · change c ∈ (m.state.readyQueue.enqueue c).toList
    rw [hq]
    exact List.mem_append_right _ (List.mem_singleton_self c)

theorem enqueueTerminated {c n : Thread} (h : m.Owned (.placed c n)) :
    (m.setState { m.state with terminatedThreads := m.state.terminatedThreads.enqueue c }).Owned
      (.gone c n) := by
  obtain ⟨ha,hc,hi⟩ := h.slot
  have hq := LinkedQueue.toList_enqueue m.state.terminatedThreads c
  refine h.of_count (fun t => ?_) rfl ⟨ha,hc,hi,?_⟩
  · simp only [count, setState, hand_placed, hand_gone, hq, List.count_append, List.count_nil]
    omega
  · change c ∈ (m.state.terminatedThreads.enqueue c).toList
    rw [hq]
    exact List.mem_append_right _ (List.mem_singleton_self c)

theorem dequeueReady {n : Thread} {q : LinkedQueue Thread} (h : m.Owned .rest)
    (hq : m.state.readyQueue.toList = n :: q.toList) :
    (m.setState { m.state with readyQueue := q }).Owned (.popped n) := by
  refine h.of_count (fun t => ?_) rfl (Settled.congr h.slot rfl rfl rfl)
  simp only [count, setState, hand_rest, hand_popped, hq, List.count_cons, List.count_nil]
  omega

theorem dequeueReady_taken {c n : Thread} {q : LinkedQueue Thread} (h : m.Owned (.taken c none))
    (hq : m.state.readyQueue.toList = n :: q.toList) :
    (m.setState { m.state with readyQueue := q }).Owned (.taken c (some n)) := by
  refine h.of_count (fun t => ?_) rfl h.slot
  simp only [count, setState, hand_taken, hq, Option.toList_some, Option.toList_none, List.count_cons,
    List.count_nil]
  omega

theorem removeReady {t : Thread} {q : LinkedQueue Thread} {pre post : List Thread} (h : m.Owned .rest)
    (hr : m.state.readyQueue.toList = pre ++ t :: post) (hq : q.toList = pre ++ post) :
    (m.setState { m.state with readyQueue := q }).Owned (.dropping t) := by
  refine h.of_count (fun t' => ?_) rfl (Settled.congr h.slot rfl rfl rfl)
  simp only [count, setState, hand_rest, hand_dropping, hr, hq, List.count_append, List.count_cons, List.count_nil]
  omega

theorem dequeueTerminated {t : Thread} {q : LinkedQueue Thread} (h : m.Owned .rest)
    (hq : m.state.terminatedThreads.toList = t :: q.toList) :
    (m.setState { m.state with terminatedThreads := q }).Owned (.dropping t) := by
  refine h.of_count (fun t' => ?_) rfl (Settled.congr h.slot rfl rfl rfl)
  simp only [count, setState, hand_rest, hand_dropping, hq, List.count_cons, List.count_nil]
  omega

theorem dropThread {t : Thread} (h : m.Owned (.dropping t)) :
    { m with dropped := t :: m.dropped }.Owned .rest := by
  refine h.of_count (fun t' => ?_) rfl (Settled.congr h.slot rfl rfl rfl)
  simp only [count, hand_dropping, hand_rest, List.count_cons, List.count_nil]
  omega

/-- A new thread comes into the ready queue with its prepared stack. -/
theorem enqueueNew {t : Thread} {fs : List Frame} (h : m.Owned .rest) (ht : m.stack (.thread t) = [])
    (hfs : fs ≠ []) :
    ((m.setState { m.state with readyQueue := m.state.readyQueue.enqueue t }).setStack (.thread t) fs).Owned
      .rest := by
  have hnew : t ∉ m.threads .rest := fun hm => (h.known t).mp hm ht
  have hq := LinkedQueue.toList_enqueue m.state.readyQueue t
  have hp : (((m.setState { m.state with readyQueue := m.state.readyQueue.enqueue t }).setStack (.thread t)
      fs).threads .rest).Perm (t :: m.threads .rest) := by
    apply List.perm_iff_count.mpr
    intro t'
    rw [List.count_cons,count_threads,count_threads]
    simp only [count, setState, Machine.setStack, hand_rest, hq, List.count_append, List.count_cons,
      List.count_nil]
    omega
  refine ⟨Settled.congr h.slot rfl rfl rfl,hp.nodup_iff.mpr (List.nodup_cons.mpr ⟨hnew,h.nodup⟩),?_⟩
  intro t'
  rw [hp.mem_iff,List.mem_cons]
  by_cases heq : t' = t
  · rw [heq,setStack_self]
    exact ⟨fun _ => hfs,fun _ => .inl rfl⟩
  · rw [setStack_ne _ (fun hc => heq (Ctx.thread.inj hc))]
    exact ⟨fun hm => (h.known t').mp (hm.resolve_left heq),fun hm => .inr ((h.known t').mpr hm)⟩

/-- The thread to switch to is the active one, and it is not the running one. -/
theorem switch {n : Thread} (h : m.Owned φ)
    (hφ : (∃ c, φ = .left c n) ∨ (∃ c, φ = .gone c n) ∨ φ = .started n) :
    m.cur ≠ .thread n ∧ m.stack (.thread n) ≠ [] ∧ { m with cur := .thread n }.Owned .rest := by
  have key : m.state.activeThread = some n ∧ m.state.initialized = true ∧ φ.hand = [] ∧
      (∀ c, m.cur = .thread c → c ∈ m.state.ready ++ m.state.terminated) := by
    rcases hφ with ⟨c,rfl⟩ | ⟨c,rfl⟩ | rfl
    · obtain ⟨ha,hc,hi,hm⟩ := h.slot
      refine ⟨ha,hi,rfl,?_⟩
      intro c' hc'
      rw [← Ctx.thread.inj (hc.symm.trans hc')]
      exact List.mem_append_left _ hm
    · obtain ⟨ha,hc,hi,hm⟩ := h.slot
      refine ⟨ha,hi,rfl,?_⟩
      intro c' hc'
      rw [← Ctx.thread.inj (hc.symm.trans hc')]
      exact List.mem_append_right _ hm
    · obtain ⟨ha,hc,hi⟩ := h.slot
      refine ⟨ha,hi,rfl,?_⟩
      intro c' hc'
      cases hc.symm.trans hc'
  obtain ⟨ha,hi,hh,hin⟩ := key
  have hthreads : m.threads φ = n :: (m.state.ready ++ (m.state.terminated ++ m.dropped)) := by
    rw [threads,hh,ha]
    rfl
  have hnodup := h.nodup
  rw [hthreads,← List.append_assoc] at hnodup
  refine ⟨?_,(h.known n).mp (hthreads ▸ List.mem_cons_self),?_⟩
  · intro hc
    exact (List.nodup_cons.mp hnodup).1 (List.mem_append_left _ (hin n hc))
  · refine h.of_count (fun t => ?_) rfl (.inl ⟨n,ha,rfl,hi⟩)
    rw [count,count,hh]
    rfl

end Owned

end Machine

end HeineOS.Kernel
