import HeineOS.Kernel.Preservation

/-! Protocols about a few instructions only. Most of the kernel code does not concern them, and this is shown here
once for all of them. -/
namespace HeineOS.Kernel
open Lib Scheduler Protocol

/-- The instructions that no such protocol is about. -/
def Instr.plain : Instr → Bool
  | .lock l | .tryLock l | .unlock l | .forceUnlock l | .isLocked l => l != .allocator
  | .setInt _ | .setRsp0 _ | .switchStack _ | .act => false
  | _ => true

section
variable {V α β : Type} (P : Protocol Instr.Result Proc V) (idle : V → Prop)

/-- Code that comes back with the view it started with. -/
def Neutral (x : Code α) : Prop := ∀ v, idle v → P.Follows (fun v' _ => v' = v) v x

/-- Code that is idle again when it comes back. -/
def Keeps (x : Code α) : Prop := ∀ v, idle v → P.Follows (fun v' _ => idle v') v x

/-- An idle view is kept by plain instructions, by the use of the allocator and by the procedures. -/
structure Watch : Prop where
  plain : ∀ i, i.plain = true → Neutral P idle (perform i)
  alloc : Neutral P idle alloc
  dumpFreeList : ∀ lines, Neutral P idle (dumpFreeList lines)
  cleanup : Neutral P idle (call .cleanup)

variable {P idle}

theorem Neutral.then {x : Code α} {f : α → Code β} (hx : Neutral P idle x) {Q : V → β → Prop} {v : V}
    (hv : idle v) (hf : ∀ a, P.Follows Q v (f a)) : P.Follows Q v (x >>= f) := by
  apply Follows.bind
  apply (hx v hv).mono
  rintro _ a rfl
  exact hf a

theorem Neutral.bind {x : Code α} {f : α → Code β} (hx : Neutral P idle x) (hf : ∀ a, Neutral P idle (f a)) :
    Neutral P idle (x >>= f) := fun v hv => hx.then hv fun a => hf a v hv

theorem Neutral.mono {calm : V → Prop} {x : Code α} (hx : Neutral P idle x) (hc : ∀ v, calm v → idle v) :
    Neutral P calm x := fun v hv => hx v (hc v hv)

theorem Neutral.keeps {x : Code α} (hx : Neutral P idle x) : Keeps P idle x := by
  intro v hv
  apply (hx v hv).mono
  rintro _ _ rfl
  exact hv

theorem neutral_pure (a : α) : Neutral P idle (pure a : Code α) := fun _ _ => rfl

theorem Neutral.forM {f : β → Code Unit} (hf : ∀ b, Neutral P idle (f b)) (bs : List β) :
    Neutral P idle (bs.forM f) := by
  induction bs with
  | nil => exact neutral_pure _
  | cons b bs ih => exact (hf b).bind fun _ => ih

/-- Printing takes the terminal and the framebuffer only. -/
theorem println_neutral (hplain : ∀ i, i.plain = true → Neutral P idle (perform i)) (chars : Nat) :
    Neutral P idle (println chars) := by
  apply (hplain (.lock .terminal) rfl).bind
  intro _
  refine Neutral.bind (.forM (fun _ => ?_) _) fun _ => hplain (.unlock .terminal) rfl
  exact (hplain (.lock .framebuffer) rfl).bind fun _ => hplain (.unlock .framebuffer) rfl

namespace Watch
variable (hP : Watch P idle)
include hP

theorem lock {l : Lock} (hl : (l != .allocator) = true) : Neutral P idle (lock l) := hP.plain (.lock l) hl
theorem unlock {l : Lock} (hl : (l != .allocator) = true) : Neutral P idle (unlock l) := hP.plain (.unlock l) hl
theorem tryLock {l : Lock} (hl : (l != .allocator) = true) : Neutral P idle (tryLock l) := hP.plain (.tryLock l) hl

theorem log : Neutral P idle log := (hP.lock rfl).bind fun _ => hP.unlock rfl

theorem panic : Neutral P idle (panic : Code α) := by
  apply hP.log.bind
  intro _
  exact (hP.plain .halt rfl).bind fun r => r.elim

theorem freeNode (t : Option Thread) : Neutral P idle (freeNode t) := by
  cases t with
  | none => exact neutral_pure _
  | some t => exact hP.alloc.bind fun _ => neutral_pure _

theorem readyDequeue : Neutral P idle readyDequeue := (hP.plain .dequeueReady rfl).bind hP.freeNode

theorem dropBox (t : Thread) : Neutral P idle (dropBox t) := by
  apply (hP.plain (.dropThread t) rfl).bind
  intro _
  apply hP.alloc.bind
  intro _
  apply (hP.plain .flip rfl).bind
  intro userStack
  cases userStack with
  | false => exact hP.alloc
  | true => exact hP.alloc.bind fun _ => hP.alloc

theorem getActiveTid : Neutral P idle getActiveTid := by
  apply (hP.lock rfl).bind
  intro _
  apply (hP.plain .active rfl).bind
  intro active
  cases active with
  | none => exact hP.panic
  | some t => exact (hP.unlock rfl).bind fun _ => neutral_pure _

theorem ready (t : Thread) : Neutral P idle (ready t) := by
  apply (hP.lock rfl).bind
  intro _
  apply hP.alloc.bind
  intro _
  exact (hP.plain (.enqueueNew t) rfl).bind fun _ => hP.unlock rfl

theorem kill (id : Nat) : Neutral P idle (kill id) := by
  apply (hP.lock rfl).bind
  intro _
  apply (hP.plain (.removeReady id) rfl).bind
  intro victim
  cases victim with
  | none => exact hP.unlock rfl
  | some t => exact (hP.dropBox t).bind fun _ => hP.alloc.bind fun _ => hP.unlock rfl

theorem cleanupTerminatedThreads : Neutral P idle cleanupTerminatedThreads := by
  apply (hP.tryLock rfl).bind
  intro taken
  cases taken with
  | false => exact neutral_pure _
  | true => exact hP.cleanup.bind fun _ => hP.unlock rfl

theorem keyboardBuffer : Neutral P idle keyboardBuffer := by
  apply (hP.plain .swapKeyboardBuffer rfl).bind
  intro initialized
  cases initialized with
  | true => exact neutral_pure _
  | false => exact hP.alloc

theorem keyboardTrigger (scan : Scan) : Neutral P idle (keyboardTrigger scan) := by
  apply (hP.lock rfl).bind
  intro _
  cases scan with
  | incomplete => exact hP.unlock rfl
  | event => exact hP.keyboardBuffer.bind fun _ => hP.unlock rfl
  | fault => exact hP.panic

theorem receiveLoop (packets : List Packet) : Neutral P idle (receiveLoop packets) := by
  induction packets with
  | nil => exact neutral_pure _
  | cons packet packets ih =>
    apply (hP.plain (.receive packet) rfl).bind
    intro warns
    cases warns with
    | false => exact ih
    | true => exact hP.log.bind fun _ => ih

theorem rtl8139Trigger (rx tx : Bool) (packets : List Packet) : Neutral P idle (rtl8139Trigger rx tx packets) := by
  have hflush : Neutral P idle (if tx = true then flushTxQueue else pure ()) := by
    cases tx with
    | false => exact neutral_pure _
    | true =>
      apply (hP.tryLock rfl).bind
      intro taken
      cases taken with
      | false => exact neutral_pure _
      | true => exact hP.unlock rfl
  cases rx with
  | false => exact hflush
  | true =>
    refine Neutral.bind ((hP.tryLock rfl).bind fun taken => ?_) fun _ => hflush
    cases taken with
    | false => exact neutral_pure _
    | true => exact (hP.receiveLoop packets).bind fun _ => hP.unlock rfl

theorem receivePacket : Neutral P idle receivePacket := by
  apply (hP.lock rfl).bind
  intro _
  exact (hP.plain .popPacket rfl).bind fun _ => hP.unlock rfl

/-- A timer interrupt only matters by its yield. -/
theorem timerTrigger {R : V → V → Prop} {v : V} (hv : idle v) (hR : R v v)
    (hyield : P.Follows (fun v' _ => R v v') v yieldCpu) :
    P.Follows (fun v' _ => R v v') v timerTrigger := by
  refine (hP.plain .fetchTime rfl).then hv fun time => ?_
  have htick : P.Follows (fun v' _ => R v v') v
      (if time % 10 = 0 then do forceUnlock .intVectors; yieldCpu else pure ()) := by
    split
    · exact (hP.plain (.forceUnlock .intVectors) rfl).then hv fun _ => hyield
    · exact hR
  by_cases hspinner : time % 250 = 0
  · simp only [hspinner, if_true]
    refine (hP.tryLock rfl).then hv fun taken => ?_
    cases taken with
    | false => exact htick
    | true => exact (hP.unlock rfl).then hv fun _ => htick
  · simp only [hspinner, if_false]
    exact htick

theorem dispatchInterrupt {R : V → V → Prop} {v : V} (hv : idle v) (hR : R v v) (hidle : ∀ v', R v v' → idle v')
    (hyield : P.Follows (fun v' _ => R v v') v yieldCpu) (i : Interrupt) :
    P.Follows (fun v' _ => R v v') v (dispatchInterrupt i) := by
  refine (hP.lock rfl).then hv fun _ => (hP.plain (.lookupIsr i.vector) rfl).then hv fun registered => ?_
  cases registered with
  | false =>
    refine (hP.unlock rfl).then hv fun _ => (hP.panic v hv).mono ?_
    rintro _ _ rfl
    exact hR
  | true =>
    have hneutral : ∀ {x : Code Unit}, Neutral P idle x → P.Follows (fun v' _ => R v v') v x := by
      intro x hx
      apply (hx v hv).mono
      rintro _ _ rfl
      exact hR
    have htrigger : P.Follows (fun v' _ => R v v') v (trigger i) := by
      cases i with
      | pit => exact hP.timerTrigger hv hR hyield
      | keyboard scan => exact hneutral (hP.keyboardTrigger scan)
      | rtl8139 rx tx packets => exact hneutral (hP.rtl8139Trigger rx tx packets)
    refine Follows.bind (htrigger.mono ?_)
    intro v' _ hv'
    apply (hP.unlock rfl v' (hidle v' hv')).mono
    rintro _ _ rfl
    exact hv'

/-- An action of a thread. The guards that it keeps are not of the allocator. -/
theorem doAct {calm : V → Prop} (hcalm : ∀ v, calm v → idle v) (hyield : Keeps P calm yieldCpu)
    (hexit : Keeps P calm exit) (hregister : ∀ u, Keeps P calm (register u)) {thread : Bool}
    (hschedule : thread = false → Keeps P calm schedule) {held : List Lock} {v : V} (hv : calm v) (hheld : .allocator ∉ held) (a : Act) :
    P.Follows (fun v' held' => calm v' ∧ .allocator ∉ held') v (doAct thread held a) := by
  have hkeeps : ∀ {β : Type} {x : Code β}, Keeps P calm x →
      P.Follows (fun v' held' => calm v' ∧ .allocator ∉ held') v (x >>= fun _ => pure held) := by
    intro β x hx
    exact Follows.bind ((hx v hv).mono fun v' _ hv' => ⟨hv',hheld⟩)
  have hneutral : ∀ {β : Type} {x : Code β}, Neutral P idle x → Keeps P calm x := fun hx => (hx.mono hcalm).keeps
  have hshared : ∀ l : Lock, l.shared = true → (l != .allocator) = true ∧ .allocator ∉ l :: held := by
    intro l hl
    have hne : l ≠ .allocator := by
      rintro rfl
      cases hl
    refine ⟨bne_iff_ne.mpr hne,?_⟩
    rw [List.mem_cons,not_or]
    exact ⟨hne.symm,hheld⟩
  cases a with
  | acquire l =>
    rw [Kernel.doAct]
    split
    · rename_i hl
      exact (hP.lock (hshared l hl).1).then (hcalm v hv) fun _ => ⟨hv,(hshared l hl).2⟩
    · exact ⟨hv,hheld⟩
  | tryAcquire l =>
    rw [Kernel.doAct]
    split
    · rename_i hl
      refine (hP.tryLock (hshared l hl).1).then (hcalm v hv) fun taken => ?_
      cases taken with
      | false => exact ⟨hv,hheld⟩
      | true => exact ⟨hv,(hshared l hl).2⟩
    · exact ⟨hv,hheld⟩
  | release l =>
    rw [Kernel.doAct]
    split
    · rename_i hm
      have hne : (l != .allocator) = true := by
        rw [bne_iff_ne]
        rintro rfl
        exact hheld hm
      exact (hP.unlock hne).then (hcalm v hv) fun _ => ⟨hv,fun h => hheld (List.mem_of_mem_erase h)⟩
    · exact ⟨hv,hheld⟩
  | alloc => exact hkeeps (hneutral hP.alloc)
  | dumpFreeList lines => exact hkeeps (hneutral (hP.dumpFreeList lines))
  | ready t => exact hkeeps (hneutral (hP.ready t))
  | yieldCpu => exact hkeeps hyield
  | exit =>
    cases thread with
    | false => exact ⟨hv,hheld⟩
    | true => exact hkeeps hexit
  | kill id => exact hkeeps (hneutral (hP.kill id))
  | getActiveTid => exact hkeeps (hneutral hP.getActiveTid)
  | cleanup => exact hkeeps (hneutral hP.cleanupTerminatedThreads)
  | register u => exact hkeeps (hregister u)
  | keyboardBuffer => exact hkeeps (hneutral hP.keyboardBuffer)
  | receivePacket => exact hkeeps (hneutral hP.receivePacket)
  | schedule =>
    cases thread with
    | true => exact ⟨hv,hheld⟩
    | false => exact hkeeps (hschedule rfl)

theorem cleanup_body : Neutral P idle (Proc.body .cleanup) := by
  refine Neutral.bind ((hP.plain .dequeueTerminated rfl).bind hP.freeNode) fun t => ?_
  cases t with
  | none => exact neutral_pure _
  | some t => exact (hP.dropBox t).bind fun _ => hP.cleanup

end Watch

end

theorem Own.after_handler {o : Own} (i : Instr) (r : i.Result) : (o.after i r).handler = o.handler := by
  cases i with
  | lock l => exact o.acquire_handler l
  | tryLock l =>
    cases r with
    | false => rfl
    | true => exact o.acquire_handler l
  | unlock l => exact o.release_handler l
  | forceUnlock l => cases l <;> rfl
  | _ => rfl

/-- The instructions that take or drop the lock of the allocator. -/
def Instr.locksHeap : Instr → Bool
  | .lock l | .tryLock l | .unlock l | .forceUnlock l => l == .allocator
  | _ => false

namespace Machine
variable {m m' : Machine} {label : Label}

/-- A stack is as before, or it is the prepared one of a new thread. -/
def SameStack (m m' : Machine) (c : Ctx) : Prop :=
  m'.stack c = m.stack c ∨ ∃ t, c = .thread t ∧ m.stack c = [] ∧ m'.stack c = [⟨kickoff t,.fresh⟩]

/-- What an instruction leaves alone. -/
structure Effect (i : Instr) (m m' : Machine) : Prop where
  cur : (∀ n, i ≠ .switchStack n) → m'.cur = m.cur
  rsp0 : (∀ t, i ≠ .setRsp0 t) → m'.rsp0 = m.rsp0
  intEnabled : (∀ b, i ≠ .setInt b) → m'.intEnabled = m.intEnabled
  allocator : i.locksHeap = false → m'.locked .allocator = m.locked .allocator
  stack : ∀ c, m.SameStack m' c

private theorem effect_setLock {i : Instr} {l : Lock} (hl : i.locksHeap = false → (l == .allocator) = false)
    (b : Bool) : Effect i m (m.setLock l b) where
  cur _ := rfl
  rsp0 _ := rfl
  intEnabled _ := rfl
  allocator hi := setLock_ne m (beq_eq_false_iff_ne.mp (hl hi)).symm b
  stack _ := .inl rfl

theorem effect_of_perform {i : Instr} {r : i.Result} (hp : m.perform i label = some (r,m')) : Effect i m m' := by
  cases i with
  | setInt b =>
    obtain rfl := perform_run rfl hp
    cases hp
    exact ⟨fun _ => rfl,fun _ => rfl,fun h => absurd rfl (h b),fun _ => rfl,fun _ => .inl rfl⟩
  | setRsp0 t =>
    obtain rfl := perform_run rfl hp
    cases hp
    exact ⟨fun _ => rfl,fun h => absurd rfl (h t),fun _ => rfl,fun _ => rfl,fun _ => .inl rfl⟩
  | switchStack n =>
    obtain rfl := perform_run rfl hp
    cases hp
    exact ⟨fun h => absurd rfl (h n),fun _ => rfl,fun _ => rfl,fun _ => rfl,fun _ => .inl rfl⟩
  | act =>
    cases label with
    | act a =>
      cases hp
      exact ⟨fun _ => rfl,fun _ => rfl,fun _ => rfl,fun _ => rfl,fun _ => .inl rfl⟩
    | _ => cases hp
  | flip =>
    cases label with
    | flip b =>
      cases hp
      exact ⟨fun _ => rfl,fun _ => rfl,fun _ => rfl,fun _ => rfl,fun _ => .inl rfl⟩
    | _ => cases hp
  | lock l =>
    obtain rfl := perform_run rfl hp
    simp only [perform] at hp
    split at hp
    · cases hp
    · cases hp
      exact effect_setLock id true
  | tryLock l =>
    obtain rfl := perform_run rfl hp
    cases hp
    exact effect_setLock id true
  | unlock l =>
    obtain rfl := perform_run rfl hp
    cases hp
    exact effect_setLock id false
  | forceUnlock l =>
    obtain rfl := perform_run rfl hp
    cases hp
    exact effect_setLock id false
  | enqueueNew t =>
    obtain rfl := perform_run rfl hp
    simp only [perform] at hp
    split at hp
    · rename_i he
      cases hp
      refine ⟨fun _ => rfl,fun _ => rfl,fun _ => rfl,fun _ => rfl,fun c => ?_⟩
      by_cases hc : c = .thread t
      · subst hc
        exact .inr ⟨t,rfl,List.isEmpty_iff.mp he,setStack_self _ _ _⟩
      · exact .inl (setStack_ne _ hc _)
    · cases hp
  | halt => cases label <;> cases hp
  | _ =>
    obtain rfl := perform_run rfl hp
    cases hp
    exact ⟨fun _ => rfl,fun _ => rfl,fun _ => rfl,fun _ => rfl,fun _ => .inl rfl⟩

/-- A stack has the frame of a handler exactly above another frame. -/
theorem Ok.shape_top {mode : Mode} {f : Frame} {fs : List Frame} (h : m.Ok mode) (hs : m.stack m.cur = f :: fs) :
    f.own.handler = !fs.isEmpty := by
  obtain ⟨_,_,_,_,hinv⟩ := h
  have hshape := hinv.shape m.cur
  rw [hs] at hshape
  exact hshape.1

theorem Ok.stack_ne_nil {mode : Mode} (h : m.Ok mode) : m.stack m.cur ≠ [] := by
  obtain ⟨_,f,fs,_,hinv⟩ := h
  rw [hinv.stack]
  exact List.cons_ne_nil f fs

end Machine

end HeineOS.Kernel
