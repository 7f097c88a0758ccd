import HeineOS.Kernel.Discipline

/-! The invariant of the CPU: what its locks, its scheduler and the code on its stacks have to do with
each other between any two steps. -/
namespace HeineOS.Kernel
open Lib Scheduler Protocol

def Ctx.isThread : Ctx → Bool
  | .boot => false
  | .thread _ => true

/-- The threads that the holder of the scheduler has in hand. -/
def Phase.hand : Phase → List Thread
  | .popped n => [n]
  | .taken c n => c :: n.toList
  | .placed c _ => [c]
  | .dropping t => [t]
  | _ => []

/-- The thread that is about to be dropped. -/
def Phase.doomed : Phase → List Thread
  | .dropping t => [t]
  | _ => []

/-- The code of a frame keeps to the protocol from a local state that fits the phase of the
scheduler. -/
structure Runs (mode : Mode) (c : Ctx) (φ : Phase) (f : Frame) (g : Local) : Prop where
  own : g.own = f.own
  thread : g.thread = c.isThread
  live : f.own.sched = .live → g.phase = φ
  rest : f.own.sched ≠ .live → g.phase = .rest
  follows : (protocol mode).Follows Done g f.code

/-- A frame that was interrupted or left. -/
def Waits (mode : Mode) (c : Ctx) (φ : Phase) (f : Frame) : Prop :=
  ∃ g, Runs mode c φ f g ∧ g.ie ≠ some false ∧ g.Suspendable

/-- Which frames may keep the scheduler locked: one with the guard or one in the middle of
`thread_switch`, and none above it has a guard. -/
def Sched : Bool → List Frame → Prop
  | locked, [] => locked = false
  | false, f :: fs => f.own.sched ≠ .live ∧ f.own.handoff = false ∧ Sched false fs
  | true, f :: fs =>
    ((f.own.sched = .live ∨ f.own.handoff = true) ∧ Sched false fs) ∨
    (f.own.sched = .absent ∧ f.own.handoff = false ∧ Sched true fs)

/-- A stack that is not running: it was left in `thread_switch`. -/
def Parked (mode : Mode) (c : Ctx) (fs : List Frame) : Prop :=
  fs = [] ∨ ∃ f rest, fs = f :: rest ∧ f.own.handoff = true ∧ f.own.sched ≠ .live ∧ Sched false rest ∧
    (∃ g, Runs mode c .rest f g ∧ g.ie = none ∧ g.Suspendable) ∧ ∀ f' ∈ rest, Waits mode c .rest f'

/-- Handlers sit on top of the one frame that is none. -/
def Shape : List Frame → Prop
  | [] => True
  | f :: fs => f.own.handler = !fs.isEmpty ∧ Shape fs

/-- No guard of a plain lock is on the stack. -/
def bare (fs : List Frame) : Bool := fs.all fun f => f.own.held.isEmpty

namespace Machine
variable (m : Machine)

/-- What a local state knows is true. -/
structure Knows (g : Local) : Prop where
  ie : ∀ b, g.ie = some b → m.intEnabled = b
  free : g.ie = some false → ∀ l ∈ g.facts.free, m.locked l = true → g.own.holds l = true
  taken : g.ie = some false → ∀ l ∈ g.facts.taken,
    l.plain = true ∧ m.locked l = true ∧ g.own.holds l = false
  isrs : g.ie = some false → ∀ isrs, g.facts.isrs = some isrs → m.isrs = isrs
  buffer : g.ie = some false → g.facts.buffer = true → m.keyboardBuffer = true
  nic : g.ie = some false → ∀ nic, g.facts.nic = some nic → m.nic = nic

/-- The vectors and the keyboard are locked by the running frame or not at all, with interrupts
disabled. -/
structure Sections (o : Own) : Prop where
  ints : o.holds .intVectors = m.locked .intVectors
  keyboard : o.holds .keyboard = m.locked .keyboard
  disabled : m.intEnabled = true → m.locked .intVectors = false ∧ m.locked .keyboard = false

/-- Every thread that exists, where it is. -/
def threads (φ : Phase) : List Thread :=
  φ.hand ++ (m.state.activeThread.toList ++ (m.state.ready ++ (m.state.terminated ++ m.dropped)))

/-- The active thread runs, or the boot code before the first switch. -/
def Settled : Prop :=
  (∃ a, m.state.activeThread = some a ∧ m.cur = .thread a ∧ m.state.initialized = true) ∨
  (m.state.activeThread.isSome = true ∧ m.cur = .boot ∧ m.state.initialized = false)

/-- What the scheduler says about the running context. -/
def Slot : Phase → Prop
  | .rest | .popped _ | .dropping _ => m.Settled
  | .taken c _ => m.state.activeThread = none ∧ m.cur = .thread c ∧ m.state.initialized = true
  | .placed c n => m.state.activeThread = some n ∧ m.cur = .thread c ∧ m.state.initialized = true
  | .left c n =>
    m.state.activeThread = some n ∧ m.cur = .thread c ∧ m.state.initialized = true ∧ c ∈ m.state.ready
  | .gone c n =>
    m.state.activeThread = some n ∧ m.cur = .thread c ∧ m.state.initialized = true ∧ c ∈ m.state.terminated
  | .starting => m.state.activeThread.isSome = true ∧ m.cur = .boot ∧ m.state.initialized = true
  | .started n => m.state.activeThread = some n ∧ m.cur = .boot ∧ m.state.initialized = true

structure Owned (φ : Phase) : Prop where
  slot : m.Slot φ
  nodup : (m.threads φ).Nodup
  known : ∀ t, t ∈ m.threads φ ↔ m.stack (.thread t) ≠ []

/-- The threads that will never run again, unless one of them is still on its way out. -/
def removed (φ : Phase) : List Thread := φ.doomed ++ (m.state.terminated ++ m.dropped)

/-- A taken plain lock has a guard, and in clean runs what is left for good has none. -/
structure Kept (mode : Mode) (φ : Phase) : Prop where
  held : ∀ l, l.plain = true → m.locked l = true → ∃ c, ∃ f ∈ m.stack c, l ∈ f.own.held
  boot : mode.clean = true → m.cur ≠ .boot → bare (m.stack .boot) = true
  removed : mode.clean = true → ∀ t ∈ m.removed φ, m.cur ≠ .thread t → bare (m.stack (.thread t)) = true

/-- The invariant, for the running frame `f` over the frames `fs`. -/
structure Inv (mode : Mode) (φ : Phase) (f : Frame) (fs : List Frame) (g : Local) : Prop where
  stack : m.stack m.cur = f :: fs
  runs : Runs mode m.cur φ f g
  knows : m.Knows g
  sections : m.Sections f.own
  waits : ∀ f' ∈ fs, Waits mode m.cur φ f'
  parked : ∀ c, c ≠ m.cur → Parked mode c (m.stack c)
  shape : ∀ c, Shape (m.stack c)
  sched : Sched (m.locked .scheduler) (f :: fs)
  idle : (∀ f' ∈ f :: fs, f'.own.sched ≠ .live) → φ = .rest
  owned : m.Owned φ
  kept : m.Kept mode φ

/-- The invariant holds for some phase. -/
def Ok (mode : Mode) : Prop := ∃ φ f fs g, m.Inv mode φ f fs g

end Machine

theorem Waits.of_not_live {mode : Mode} {c : Ctx} {φ : Phase} {f : Frame} (hf : f.own.sched ≠ .live)
    (h : Waits mode c φ f) (φ' : Phase) : Waits mode c φ' f := by
  obtain ⟨g,hr,hs⟩ := h
  exact ⟨g,⟨hr.own,hr.thread,fun hl => absurd hl hf,hr.rest,hr.follows⟩,hs⟩

namespace Sched
variable {f f' : Frame} {fs : List Frame} {b : Bool}

theorem not_live (h : Sched false fs) : ∀ f ∈ fs, f.own.sched ≠ .live := by
  induction fs with
  | nil => exact fun _ hf => absurd hf List.not_mem_nil
  | cons f fs ih =>
    intro f' hf'
    rcases List.mem_cons.mp hf' with rfl | hf'
    · exact h.1
    · exact ih h.2.2 f' hf'

/-- The frame that holds the scheduler is the only one with a live guard. -/
theorem of_live (h : Sched b (f :: fs)) (hl : f.own.sched = .live) : b = true ∧ Sched false fs := by
  cases b with
  | false => exact absurd hl h.1
  | true =>
    rcases h with ⟨_,h⟩ | ⟨ha,_⟩
    · exact ⟨rfl,h⟩
    · rw [hl] at ha
      cases ha

theorem of_handoff (h : Sched b (f :: fs)) (hh : f.own.handoff = true) : b = true ∧ Sched false fs := by
  cases b with
  | false =>
    have hn := h.2.1
    rw [hh] at hn
    cases hn
  | true =>
    rcases h with ⟨_,h⟩ | ⟨_,ha,_⟩
    · exact ⟨rfl,h⟩
    · rw [hh] at ha
      cases ha

/-- A guard that is stale and not in a switch is dropped while the lock is free. -/
theorem of_stale (h : Sched b (f :: fs)) (hs : f.own.sched = .stale) (hh : f.own.handoff = false) :
    b = false := by
  cases b with
  | false => rfl
  | true =>
    rcases h with ⟨ho | ho,_⟩ | ⟨ha,_⟩
    · rw [hs] at ho; cases ho
    · rw [hh] at ho; cases ho
    · rw [hs] at ha; cases ha

/-- Only the guards matter. -/
theorem congr (h : Sched b (f :: fs)) (hs : f'.own.sched = f.own.sched)
    (hh : f'.own.handoff = f.own.handoff) : Sched b (f' :: fs) := by
  cases b with
  | false => simpa only [Sched, hs, hh] using h
  | true => simpa only [Sched, hs, hh] using h

theorem lock (h : Sched false (f :: fs)) (hl : f'.own.sched = .live) : Sched true (f' :: fs) :=
  .inl ⟨.inl hl,h.2.2⟩

end Sched

namespace Machine
variable {m m' : Machine} {φ : Phase} {g : Local} {o : Own}

theorem Knows.congr (h : m.Knows g) (hl : m'.locked = m.locked) (hi : m'.intEnabled = m.intEnabled)
    (hv : m'.isrs = m.isrs) (hb : m'.keyboardBuffer = m.keyboardBuffer) (hn : m'.nic = m.nic) :
    m'.Knows g := by
  refine ⟨?_,?_,?_,?_,?_,?_⟩
  · rw [hi]; exact h.ie
  · rw [hl]; exact h.free
  · rw [hl]; exact h.taken
  · rw [hv]; exact h.isrs
  · rw [hb]; exact h.buffer
  · rw [hn]; exact h.nic

/-- A local state without facts knows at most that interrupts are enabled. -/
theorem Knows.of_enabled (hf : g.ie ≠ some false) (ht : g.ie = some true → m.intEnabled = true) : m.Knows g := by
  refine ⟨?_,fun h => absurd h hf,fun h => absurd h hf,fun h => absurd h hf,fun h => absurd h hf,
    fun h => absurd h hf⟩
  intro b hb
  cases b with
  | false => exact absurd hb hf
  | true => exact ht hb

theorem Sections.congr (h : m.Sections o) (hl : m'.locked = m.locked) (hi : m'.intEnabled = m.intEnabled) :
    m'.Sections o := by
  refine ⟨?_,?_,?_⟩
  · rw [hl]; exact h.ints
  · rw [hl]; exact h.keyboard
  · rw [hl,hi]; exact h.disabled

theorem Owned.congr (h : m.Owned φ) (hs : m'.state = m.state) (hd : m'.dropped = m.dropped) (hc : m'.cur = m.cur)
    (hk : ∀ c, m.stack c ≠ [] ↔ m'.stack c ≠ []) : m'.Owned φ := by
  have ht : m'.threads φ = m.threads φ := by rw [threads,threads,hs,hd]
  refine ⟨?_,by rw [ht]; exact h.nodup,by rw [ht]; exact fun t => (h.known t).trans (hk _)⟩
  have hslot := h.slot
  cases φ <;> simpa only [Slot, Settled, hs, hc] using hslot

theorem Owned.setStack (h : m.Owned φ) {c : Ctx} (hc : m.stack c ≠ []) {fs : List Frame} (hfs : fs ≠ []) :
    (m.setStack c fs).Owned φ := by
  refine h.congr rfl rfl rfl ?_
  intro c'
  by_cases heq : c' = c
  · rw [heq,setStack_self]
    exact ⟨fun _ => hfs,fun _ => hc⟩
  · rw [setStack_ne _ heq]

/-- The running stack changes, and all frames with guards stay on it. -/
theorem Kept.restack {mode : Mode} (h : m.Kept mode φ) (hl : m'.locked = m.locked) (hs : m'.state = m.state)
    (hd : m'.dropped = m.dropped) (hcur : m'.cur = m.cur) (hstack : m'.stack = m.stack) {fs : List Frame}
    (hfs : ∀ f ∈ m.stack m.cur, f.own.held ≠ [] → f ∈ fs) : (m'.setStack m.cur fs).Kept mode φ := by
  refine ⟨?_,?_,?_⟩
  · intro l hp hlocked
    change m'.locked l = true at hlocked
    rw [hl] at hlocked
    obtain ⟨c,f,hf,hm⟩ := h.held l hp hlocked
    refine ⟨c,f,?_,hm⟩
    by_cases hc : c = m.cur
    · rw [hc,setStack_self]
      exact hfs f (hc ▸ hf) (List.ne_nil_of_mem hm)
    · rw [setStack_ne _ hc,hstack]
      exact hf
  · intro hclean hb
    change m'.cur ≠ .boot at hb
    rw [hcur] at hb
    rw [setStack_ne _ hb.symm,hstack]
    exact h.boot hclean hb
  · intro hclean t ht hb
    change m'.cur ≠ .thread t at hb
    rw [hcur] at hb
    rw [setStack_ne _ hb.symm,hstack]
    change t ∈ m'.removed φ at ht
    rw [Machine.removed,hs,hd] at ht
    exact h.removed hclean t ht hb

/-- What holds of the new stack and of the other stacks holds of all of them. -/
theorem forall_setStack {P : Ctx → List Frame → Prop} {c : Ctx} {fs : List Frame} (hfs : P c fs)
    (h : ∀ c', c' ≠ c → P c' (m.stack c')) (c' : Ctx) : P c' ((m.setStack c fs).stack c') := by
  by_cases heq : c' = c
  · rw [heq,setStack_self]
    exact hfs
  · rw [setStack_ne _ heq]
    exact h c' heq

theorem Knows.setLock (h : m.Knows g) {l : Lock} {b : Bool} {o' : Own}
    (hne : ∀ l', l' ≠ l → o'.holds l' = g.own.holds l') (hself : b = true → o'.holds l = true)
    (htaken : g.ie = some false → l ∉ g.facts.taken) : (m.setLock l b).Knows { g with own := o' } := by
  refine ⟨h.ie,?_,?_,h.isrs,h.buffer,h.nic⟩
  · intro hie l' hl' hlocked
    by_cases heq : l' = l
    · subst heq
      rw [setLock_self] at hlocked
      exact hself hlocked
    · rw [setLock_ne _ heq] at hlocked
      exact (hne l' heq).trans (h.free hie l' hl' hlocked)
  · intro hie l' hl'
    have heq : l' ≠ l := fun heq => htaken hie (heq ▸ hl')
    obtain ⟨hp,hlocked,hholds⟩ := h.taken hie l' hl'
    exact ⟨hp,(setLock_ne _ heq _).trans hlocked,(hne l' heq).trans hholds⟩

theorem Sections.setLock (h : m.Sections o) {l : Lock} {b : Bool} {o' : Own}
    (hne : ∀ l', l' ≠ l → o'.holds l' = o.holds l')
    (hl : l = .intVectors ∨ l = .keyboard → o'.holds l = b ∧ (b = true → m.intEnabled = false)) :
    (m.setLock l b).Sections o' := by
  have key : ∀ l', l' = .intVectors ∨ l' = .keyboard → o.holds l' = m.locked l' →
      o'.holds l' = (m.setLock l b).locked l' := by
    intro l' hl' ho
    by_cases heq : l' = l
    · subst heq
      rw [setLock_self]
      exact (hl hl').1
    · rw [setLock_ne _ heq,hne l' heq]
      exact ho
  have free : ∀ l', l' = .intVectors ∨ l' = .keyboard → m.intEnabled = true → m.locked l' = false →
      (m.setLock l b).locked l' = false := by
    intro l' hl' hi hf
    by_cases heq : l' = l
    · subst heq
      rw [setLock_self]
      cases b with
      | false => rfl
      | true => rw [(hl hl').2 rfl] at hi; cases hi
    · rw [setLock_ne _ heq]
      exact hf
  exact ⟨key _ (.inl rfl) h.ints,key _ (.inr rfl) h.keyboard,
    fun hi => ⟨free _ (.inl rfl) hi (h.disabled hi).1,free _ (.inr rfl) hi (h.disabled hi).2⟩⟩

namespace Inv
variable {mode : Mode} {f : Frame} {fs : List Frame} {φ' : Phase} {x : Code Unit} {o' : Own} {g' : Local}

/-- A stack that does not run stays parked, or it is new. -/
structure Others (mode : Mode) (m m' : Machine) (c : Ctx) : Prop where
  parked : Parked mode c (m'.stack c)
  shape : Shape (m'.stack c)
  same : m'.stack c = m.stack c ∨ (m.stack c = [] ∧ bare (m'.stack c) = true)

theorem Others.bare {c : Ctx} (h : Others mode m m' c) (hb : bare (m.stack c) = true) :
    Kernel.bare (m'.stack c) = true := by
  rcases h.same with hs | ⟨_,hs⟩
  · rw [hs]
    exact hb
  · exact hs

/-- The running frame goes on and the other stacks stay parked. -/
theorem advance (h : m.Inv mode φ f fs g) (hcur : m'.cur = m.cur) (hstack : m'.stack m.cur = f :: fs)
    (hothers : ∀ c, c ≠ m.cur → Others mode m m' c)
    (hruns : Runs mode m.cur φ' ⟨x,o'⟩ g') (hknows : m'.Knows g') (hsections : m'.Sections o')
    (hhandler : o'.handler = f.own.handler) (hφ : φ' = φ ∨ f.own.sched = .live)
    (hsched : Sched (m'.locked .scheduler) (⟨x,o'⟩ :: fs))
    (hidle : o'.sched ≠ .live → (φ' = φ ∧ f.own.sched ≠ .live) ∨ φ' = .rest) (howned : m'.Owned φ')
    (hheld : ∀ l, l.plain = true → m'.locked l = true →
      l ∈ o'.held ∨ (m.locked l = true ∧ (l ∈ f.own.held → l ∈ o'.held)))
    (hremoved : mode.clean = true → ∀ t ∈ m'.removed φ', m.cur ≠ .thread t →
      t ∈ m.removed φ ∨ bare (m'.stack (.thread t)) = true) :
    (m'.setStack m.cur (⟨x,o'⟩ :: fs)).Inv mode φ' ⟨x,o'⟩ fs g' where
  stack := by
    change (m'.setStack m.cur (⟨x,o'⟩ :: fs)).stack m'.cur = _
    rw [hcur,setStack_self]
  runs := by
    change Runs mode m'.cur φ' ⟨x,o'⟩ g'
    rw [hcur]
    exact hruns
  knows := hknows.congr rfl rfl rfl rfl rfl
  sections := hsections.congr rfl rfl
  waits := by
    intro f' hf'
    change Waits mode m'.cur φ' f'
    rw [hcur]
    rcases hφ with rfl | hl
    · exact h.waits f' hf'
    · exact (h.waits f' hf').of_not_live ((h.sched.of_live hl).2.not_live f' hf') φ'
  parked := by
    intro c hc
    change c ≠ m'.cur at hc
    rw [hcur] at hc
    rw [setStack_ne _ hc]
    exact (hothers c hc).parked
  shape := by
    have hshape := h.shape m.cur
    rw [h.stack] at hshape
    exact forall_setStack (P := fun _ => Shape) ⟨hhandler.trans hshape.1,hshape.2⟩ fun c hc => (hothers c hc).shape
  sched := hsched
  idle := by
    intro hall
    rcases hidle (hall _ List.mem_cons_self) with ⟨rfl,hf⟩ | hφ'
    · refine h.idle ?_
      intro f' hf'
      rcases List.mem_cons.mp hf' with rfl | hf'
      · exact hf
      · exact hall f' (List.mem_cons_of_mem _ hf')
    · exact hφ'
  owned := howned.setStack (by rw [hstack]; exact List.cons_ne_nil _ _) (List.cons_ne_nil _ _)
  kept := by
    refine ⟨?_,?_,?_⟩
    · intro l hp hl
      rcases hheld l hp hl with ho | ⟨hl,ho⟩
      · exact ⟨m.cur,⟨x,o'⟩,by rw [setStack_self]; exact List.mem_cons_self,ho⟩
      · obtain ⟨c,f₀,hf₀,hl₀⟩ := h.kept.held l hp hl
        refine ⟨c,?_⟩
        by_cases hc : c = m.cur
        · rw [hc,h.stack] at hf₀
          rw [hc,setStack_self]
          rcases List.mem_cons.mp hf₀ with rfl | hf₀
          · exact ⟨_,List.mem_cons_self,ho hl₀⟩
          · exact ⟨f₀,List.mem_cons_of_mem _ hf₀,hl₀⟩
        · rw [setStack_ne _ hc]
          rcases (hothers c hc).same with hs | ⟨hs,_⟩
          · exact ⟨f₀,hs ▸ hf₀,hl₀⟩
          · rw [hs] at hf₀
            exact absurd hf₀ List.not_mem_nil
    · intro hclean hb
      change m'.cur ≠ .boot at hb
      rw [hcur] at hb
      rw [setStack_ne _ hb.symm]
      exact (hothers _ hb.symm).bare (h.kept.boot hclean hb)
    · intro hclean t ht hb
      change m'.cur ≠ .thread t at hb
      rw [hcur] at hb
      rw [setStack_ne _ hb.symm]
      rcases hremoved hclean t ht hb with ht | hbare
      · exact (hothers _ hb.symm).bare (h.kept.removed hclean t ht hb)
      · exact hbare

/-- The other stacks have not changed. -/
theorem others (h : m.Inv mode φ f fs g) (hstack : m'.stack = m.stack) (c : Ctx) (hc : c ≠ m.cur) :
    Others mode m m' c := by
  refine ⟨?_,?_,.inl (congrFun hstack c)⟩
  · rw [hstack]
    exact h.parked c hc
  · rw [hstack]
    exact h.shape c

/-- A lock is taken or dropped. -/
theorem relock (h : m.Inv mode φ f fs g) {l : Lock} {b : Bool}
    (hne : ∀ l', l' ≠ l → o'.holds l' = f.own.holds l') (hself : b = true → o'.holds l = true)
    (htaken : g.ie = some false → l ∉ g.facts.taken)
    (hsections : l = .intVectors ∨ l = .keyboard → o'.holds l = b ∧ (b = true → m.intEnabled = false))
    (hhandler : o'.handler = f.own.handler)
    (hsched : Sched ((m.setLock l b).locked .scheduler) (⟨x,o'⟩ :: fs))
    (hphase : o'.sched = f.own.sched ∨ (g.phase = .rest ∧ φ = .rest))
    (hfollows : (protocol mode).Follows Done { g with own := o' } x) :
    ((m.setLock l b).setStack m.cur (⟨x,o'⟩ :: fs)).Inv mode φ ⟨x,o'⟩ fs { g with own := o' } := by
  refine h.advance rfl h.stack (h.others rfl) ⟨rfl,h.runs.thread,?_,?_,hfollows⟩ ?_
    (h.sections.setLock hne hsections) hhandler (.inl rfl) hsched ?_ (h.owned.congr rfl rfl rfl fun _ => Iff.rfl) ?_
    fun _ t ht _ => .inl ht
  · intro hl
    rcases hphase with hs | ⟨hg,hφ⟩
    · exact h.runs.live (hs ▸ hl)
    · exact hg.trans hφ.symm
  · intro hl
    rcases hphase with hs | ⟨hg,_⟩
    · exact h.runs.rest (hs ▸ hl)
    · exact hg
  · refine h.knows.setLock ?_ hself htaken
    rw [h.runs.own]
    exact hne
  · intro hl
    rcases hphase with hs | ⟨_,hφ⟩
    · exact .inl ⟨rfl,hs ▸ hl⟩
    · exact .inr hφ
  · intro l' hp hl'
    by_cases heq : l' = l
    · rw [heq,setLock_self] at hl'
      rw [heq] at hp ⊢
      have hs := hself hl'
      rw [Own.holds_plain hp] at hs
      exact .inl (List.contains_iff_mem.mp hs)
    · rw [setLock_ne _ heq] at hl'
      refine .inr ⟨hl',?_⟩
      have hsame := hne l' heq
      rw [Own.holds_plain hp,Own.holds_plain hp] at hsame
      intro hm
      rw [← List.contains_iff_mem,hsame]
      exact List.contains_iff_mem.mpr hm

end Inv

end Machine

end HeineOS.Kernel
