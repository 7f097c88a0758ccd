import HeineOS.Kernel.Steps

/-! The invariant holds in every run. -/
namespace HeineOS.Kernel
open Lib Scheduler Protocol

/-- The instructions whose outcome is chosen from outside. -/
def Instr.chosen : Instr → Bool
  | .act | .flip => true
  | _ => false

namespace Machine
variable {m m' : Machine} {mode : Mode} {φ : Phase} {fs : List Frame} {g : Local} {o : Own} {label : Label}

theorem perform_run {i : Instr} {r : i.Result} (hi : i.chosen = false) (hp : m.perform i label = some (r,m')) :
    label = .run := by
  cases i with
  | act => cases hi
  | flip => cases hi
  | _ =>
    cases label with
    | run => rfl
    | _ => cases hp

/-- If the next step takes a thread out of the ready queue for good, it has no guards. -/
def killsBare (m : Machine) : Bool :=
  match m.stack m.cur with
  | ⟨.op (.removeReady id) _,_⟩ :: _ =>
    match (m.state.readyQueue.remove fun t => t.id == id).1 with
    | none => true
    | some t => bare (m.stack (.thread t))
  | _ => true

/-- If the next step is the `dequeue` of `exit`, which has already taken the active thread out, it finds a ready
thread. -/
def exitFinds (m : Machine) : Bool :=
  match m.stack m.cur with
  | ⟨.op .dequeueReady _,_⟩ :: _ => m.state.activeThread.isSome || m.state.readyQueue.dequeue.1.isSome
  | _ => true

/-- A thread exits or is killed without guards, and the boot code starts the scheduler without; `exit` finds a thread to
switch to. -/
def leavesClean (m : Machine) : Label → Bool
  | .run => m.killsBare && m.exitFinds
  | .act .exit => !m.cur.isThread || bare (m.stack m.cur)
  | .act .schedule => m.cur.isThread || bare (m.stack m.cur)
  | _ => true

/-- A registered handler finds every lock free that it waits for. -/
def triggerFree (m : Machine) : Interrupt → Bool
  | .pit | .keyboard .incomplete => true
  | .keyboard .event => m.keyboardBuffer || !m.locked .allocator
  | .keyboard .fault => !m.locked .com1
  | .rtl8139 rx _ packets => !rx || !m.locked .com1 || m.locked .rxState || !m.nic.warns packets

/-- So does the dispatcher. It logs if the vector has no handler. -/
def handlerFree (m : Machine) : Label → Bool
  | .interrupt i => if m.isrs i.vector then m.triggerFree i else !m.locked .com1
  | _ => true

/-- What the restrictions of the mode demand of a step. -/
structure Permits (mode : Mode) (m : Machine) (label : Label) : Prop where
  guarded : mode.guarded = true → m.handlerFree label = true
  clean : mode.clean = true → m.leavesClean label = true

/-- What a handler may know about the state that it interrupts. -/
def facts (m : Machine) : Facts where
  free := [.intVectors,.keyboard,.com1,.allocator].filter fun l => !m.locked l
  taken := [.rxState].filter m.locked
  isrs := some m.isrs
  buffer := m.keyboardBuffer
  nic := some m.nic

namespace Inv

/-- Every result is one that the protocol expects. -/
theorem possible {i : Instr} {k : i.Result → Code Unit} {r : i.Result}
    (h : m.Inv mode φ ⟨.op i k,o⟩ fs g) (hp : m.perform i label = some (r,m'))
    (hclean : mode.clean = true → m.leavesClean label = true) : g.Possible mode i r := by
  have hown : g.own = o := h.runs.own
  have ha : g.Allowed mode i := h.runs.follows.1
  have hphase : g.own.sched = .live → g.phase = φ := fun hl => h.runs.live (hown ▸ hl)
  have howned := h.owned
  cases i with
  | tryLock l =>
    obtain rfl := perform_run rfl hp
    cases hp
    intro hie hl
    rw [(h.knows.taken hie l hl).2.1]
    rfl
  | isIntEnabled =>
    obtain rfl := perform_run rfl hp
    cases hp
    exact h.knows.ie
  | initialized =>
    obtain rfl := perform_run rfl hp
    cases hp
    rw [← hphase ha.1,ha.2] at howned
    exact (Settled.initialized howned.slot).trans h.runs.thread.symm
  | active =>
    obtain rfl := perform_run rfl hp
    cases hp
    rcases ha with ha | ha
    · rw [← hphase ha.1,ha.2] at howned
      exact Settled.isSome howned.slot
    · rw [← hphase ha.1,ha.2] at howned
      exact howned.slot.1
  | takeActive =>
    obtain rfl := perform_run rfl hp
    cases hp
    rcases ha.2 with ha | ⟨n,ha⟩
    · rw [← hphase ha.1,ha.2] at howned
      exact Settled.isSome howned.slot
    · rw [← hphase ha.1,ha.2] at howned
      exact Settled.isSome howned.slot
  | dequeueReady =>
    obtain rfl := perform_run rfl hp
    intro hm hphase'
    obtain ⟨c,hc⟩ := hphase'
    have hlive : g.own.sched = .live := ha.2.elim (·.1) fun h => h.elim fun _ h => h.1
    rw [← hphase hlive,hc] at howned
    have hfinds := (Bool.and_eq_true_iff.mp (hclean hm)).2
    rw [exitFinds,h.stack] at hfinds
    simp only [howned.slot.1, Option.isSome_none, Bool.false_or] at hfinds
    cases hp
    exact hfinds
  | lookupIsr v =>
    obtain rfl := perform_run rfl hp
    cases hp
    intro hie isrs hk
    rw [h.knows.isrs hie isrs hk]
  | swapKeyboardBuffer =>
    obtain rfl := perform_run rfl hp
    cases hp
    exact h.knows.buffer
  | receive packet =>
    obtain rfl := perform_run rfl hp
    cases hp
    intro hie nic hk
    rw [h.knows.nic hie nic hk]
  | act =>
    cases label with
    | act a =>
      cases hp
      intro hm hcase
      have hbare : bare (m.stack m.cur) = true := by
        have hleaves := hclean hm
        rw [h.runs.thread] at hcase
        rcases hcase with ⟨rfl,ht⟩ | ⟨rfl,ht⟩
        · rwa [leavesClean,ht] at hleaves
        · rwa [leavesClean,ht] at hleaves
      rw [h.stack] at hbare
      rw [hown]
      exact List.isEmpty_iff.mp (List.all_eq_true.mp hbare _ List.mem_cons_self)
    | _ => cases hp
  | _ => trivial

/-- A step of the running frame. -/
theorem op {i : Instr} {k : i.Result → Code Unit} {r : i.Result} (h : m.Inv mode φ ⟨.op i k,o⟩ fs g)
    (hp : m.perform i label = some (r,m')) (hr : g.Possible mode i r)
    (hclean : mode.clean = true → m.leavesClean label = true) :
    (m'.setStack m.cur (⟨k r,o.after i r⟩ :: fs)).Ok mode := by
  obtain ⟨own,thread,phase,ie,facts⟩ := g
  obtain rfl : own = o := h.runs.own
  have ha := h.runs.follows.1
  have hf := h.runs.follows.2 r _ ⟨hr,rfl⟩
  have hthread : thread = m.cur.isThread := h.runs.thread
  have hphase : own.sched = .live → phase = φ := h.runs.live
  have howned := h.owned
  cases i with
  | lock l =>
    obtain rfl := perform_run rfl hp
    rw [perform] at hp
    split at hp
    · cases hp
    · rename_i hl
      cases hp
      exact ⟨_,_,_,_,h.acquire (Bool.eq_false_iff.mpr hl) ha.1 hf⟩
  | tryLock l =>
    obtain rfl := perform_run rfl hp
    cases hp
    cases hl : m.locked l with
    | false =>
      rw [hl] at hf
      exact ⟨_,_,_,_,h.acquire hl ha hf⟩
    | true =>
      have hsame : m.setLock l true = m := by
        rw [setLock,← hl,Function.update_eq_self]
      rw [hl] at hf
      rw [hsame]
      exact ⟨_,_,_,_,h.quiet rfl rfl rfl rfl rfl rfl h.knows hf⟩
  | unlock l =>
    obtain rfl := perform_run rfl hp
    cases hp
    exact ⟨_,_,_,_,h.release ha hf⟩
  | forceUnlock l =>
    obtain rfl := perform_run rfl hp
    cases hp
    exact ⟨_,_,_,_,h.forceUnlock ha hf⟩
  | isLocked l =>
    obtain rfl := perform_run rfl hp
    cases hp
    refine ⟨_,_,_,_,h.quiet rfl rfl rfl rfl rfl rfl ?_ hf⟩
    cases hl : m.locked l with
    | true => exact h.knows
    | false =>
      refine ⟨h.knows.ie,?_,h.knows.taken,h.knows.isrs,h.knows.buffer,h.knows.nic⟩
      intro hie l' hl' hlocked
      rcases List.mem_cons.mp hl' with rfl | hl'
      · rw [hl] at hlocked
        cases hlocked
      · exact h.knows.free hie l' hl' hlocked
  | isIntEnabled =>
    obtain rfl := perform_run rfl hp
    cases hp
    exact ⟨_,_,_,_,h.quiet rfl rfl rfl rfl rfl rfl h.knows hf⟩
  | setInt b =>
    obtain rfl := perform_run rfl hp
    cases hp
    exact ⟨_,_,_,_,h.setInt ha hf⟩
  | initialized =>
    obtain rfl := perform_run rfl hp
    cases hp
    exact ⟨_,_,_,_,h.quiet rfl rfl rfl rfl rfl rfl h.knows hf⟩
  | setInitialized =>
    obtain rfl := perform_run rfl hp
    cases hp
    obtain ⟨⟨hlive,hat⟩,hboot⟩ := ha
    obtain rfl : phase = _ := hat
    obtain rfl := hphase hlive
    exact ⟨_,_,_,_,h.onState hlive (howned.setInitialized (hthread.symm.trans hboot)) (fun _ t ht _ => .inl ht) hf⟩
  | active =>
    obtain rfl := perform_run rfl hp
    cases hp
    obtain ⟨t,ht⟩ := Option.isSome_iff_exists.mp hr
    rw [ht] at hf
    rw [ht]
    rcases ha with ⟨hlive,hat⟩ | ⟨hlive,hat⟩
    · obtain rfl : phase = _ := hat
      exact ⟨_,_,_,_,h.quiet rfl rfl rfl rfl rfl rfl h.knows hf⟩
    · obtain rfl : phase = _ := hat
      obtain rfl := hphase hlive
      exact ⟨_,_,_,_,h.onState hlive (howned.active ht) (fun _ t ht _ => .inl ht) hf⟩
  | takeActive =>
    obtain rfl := perform_run rfl hp
    cases hp
    obtain ⟨t,ht⟩ := Option.isSome_iff_exists.mp hr
    rw [ht] at hf
    rw [ht]
    obtain ⟨hcur,⟨hlive,hat⟩ | ⟨n,hlive,hat⟩⟩ := ha
    · obtain rfl : phase = _ := hat
      obtain rfl := hphase hlive
      exact ⟨_,_,_,_,h.onState hlive (howned.takeActive (hthread.symm.trans hcur) ht) (fun _ t ht _ => .inl ht) hf⟩
    · obtain rfl : phase = _ := hat
      obtain rfl := hphase hlive
      have howned' := howned.takeActive_popped (hthread.symm.trans hcur) ht
      exact ⟨_,_,_,_,h.onState hlive howned' (fun _ t ht _ => .inl ht) hf⟩
  | setActive t =>
    obtain rfl := perform_run rfl hp
    cases hp
    obtain ⟨c,hlive,hat⟩ := ha
    obtain rfl : phase = _ := hat
    obtain rfl := hphase hlive
    exact ⟨_,_,_,_,h.onState hlive howned.setActive (fun _ t ht _ => .inl ht) hf⟩
  | enqueueReady t =>
    obtain rfl := perform_run rfl hp
    cases hp
    obtain ⟨n,hlive,hat⟩ := ha
    obtain rfl : phase = _ := hat
    obtain rfl := hphase hlive
    exact ⟨_,_,_,_,h.onState hlive howned.enqueueReady (fun _ t ht _ => .inl ht) hf⟩
  | enqueueTerminated t =>
    obtain rfl := perform_run rfl hp
    cases hp
    obtain ⟨n,hlive,hat⟩ := ha
    obtain rfl : phase = _ := hat
    obtain rfl := hphase hlive
    refine ⟨_,_,_,_,h.onState hlive howned.enqueueTerminated (fun _ t' ht' hcur => .inl ?_) hf⟩
    have hne : t' ≠ t := fun heq => hcur (heq ▸ howned.slot.2.1)
    have hq := LinkedQueue.toList_enqueue m.state.terminatedThreads t
    change t' ∈ (m.state.terminatedThreads.enqueue t).toList ++ m.dropped at ht'
    rw [hq,List.append_assoc,List.mem_append,List.singleton_append,List.mem_cons] at ht'
    change t' ∈ m.state.terminatedThreads.toList ++ m.dropped
    exact List.mem_append.mpr (ht'.imp id fun ht' => ht'.resolve_left hne)
  | dropThread t =>
    obtain rfl := perform_run rfl hp
    cases hp
    obtain ⟨hlive,hat⟩ := ha
    obtain rfl : phase = _ := hat
    obtain rfl := hphase hlive
    refine ⟨_,_,_,_,h.onState hlive howned.dropThread (fun _ t' ht' _ => .inl ?_) hf⟩
    change t' ∈ m.state.terminated ++ t :: m.dropped at ht'
    change t' ∈ t :: (m.state.terminated ++ m.dropped)
    exact List.perm_middle.mem_iff.mp ht'
  | enqueueNew t =>
    obtain rfl := perform_run rfl hp
    rw [perform] at hp
    split at hp
    · rename_i hempty
      cases hp
      obtain ⟨hlive,hat⟩ := ha
      obtain rfl : phase = _ := hat
      obtain rfl := hphase hlive
      have ht : m.stack (.thread t) = [] := List.isEmpty_iff.mp hempty
      have hcur : m.cur ≠ .thread t := by
        intro heq
        rw [← heq,h.stack] at ht
        cases ht
      refine ⟨_,_,_,_,h.atWork hlive (howned.enqueueNew ht (List.cons_ne_nil _ _)) rfl rfl rfl rfl rfl rfl
        ((setStack_ne _ hcur _).trans h.stack) ?_ (fun _ t ht _ => .inl ht) hf⟩
      intro c hc
      by_cases heq : c = .thread t
      · obtain ⟨hparked,hshape⟩ := parked_kickoff mode t
        refine ⟨?_,?_,.inr ⟨heq ▸ ht,?_⟩⟩
        · rw [heq,setStack_self]
          exact hparked
        · rw [heq,setStack_self]
          exact hshape
        · rw [heq,setStack_self]
          rfl
      · have hsame := setStack_ne (m.setState { m.state with readyQueue := m.state.readyQueue.enqueue t }) heq
          [⟨kickoff t,.fresh⟩]
        refine ⟨?_,?_,.inl hsame⟩
        · rw [hsame]
          exact h.parked c hc
        · rw [hsame]
          exact h.shape c
    · cases hp
  | dequeueReady =>
    obtain rfl := perform_run rfl hp
    rcases m.state.readyQueue.dequeue_cases with ⟨hd,_⟩ | ⟨n,q,hd,hq⟩
    · simp only [perform, hd] at hp
      cases hp
      exact ⟨_,_,_,_,h.quiet rfl rfl rfl rfl rfl rfl h.knows hf⟩
    · simp only [perform, hd] at hp
      cases hp
      obtain ⟨_,⟨hlive,hat⟩ | ⟨c,hlive,hat⟩⟩ := ha
      · obtain rfl : phase = _ := hat
        obtain rfl := hphase hlive
        exact ⟨_,_,_,_,h.onState hlive (howned.dequeueReady hq) (fun _ t ht _ => .inl ht) hf⟩
      · obtain rfl : phase = _ := hat
        obtain rfl := hphase hlive
        exact ⟨_,_,_,_,h.onState hlive (howned.dequeueReady_taken hq) (fun _ t ht _ => .inl ht) hf⟩
  | removeReady id =>
    obtain rfl := perform_run rfl hp
    obtain ⟨hlive,hat⟩ := ha
    obtain rfl : phase = _ := hat
    obtain rfl := hphase hlive
    rcases m.state.readyQueue.remove_cases (fun t => t.id == id) with ⟨hd,_⟩ | ⟨pre,t,post,q,hd,hr',hq,_⟩
    · simp only [perform, hd] at hp
      cases hp
      exact ⟨_,_,_,_,h.quiet rfl rfl rfl rfl rfl rfl h.knows hf⟩
    · simp only [perform, hd] at hp
      cases hp
      refine ⟨_,_,_,_,h.onState hlive (howned.removeReady hr' hq) (fun hm t' ht' _ => ?_) hf⟩
      rcases List.mem_cons.mp ht' with rfl | ht'
      · have hkill := hclean hm
        simp only [leavesClean, killsBare, h.stack, hd, Bool.and_eq_true] at hkill
        exact .inr hkill.1
      · exact .inl ht'
  | dequeueTerminated =>
    obtain rfl := perform_run rfl hp
    obtain ⟨hlive,hat⟩ := ha
    obtain rfl : phase = _ := hat
    obtain rfl := hphase hlive
    rcases m.state.terminatedThreads.dequeue_cases with ⟨hd,_⟩ | ⟨t,q,hd,hq⟩
    · simp only [perform, hd] at hp
      cases hp
      exact ⟨_,_,_,_,h.quiet rfl rfl rfl rfl rfl rfl h.knows hf⟩
    · simp only [perform, hd] at hp
      cases hp
      refine ⟨_,_,_,_,h.onState hlive (howned.dequeueTerminated hq) (fun _ t' ht' _ => .inl ?_) hf⟩
      change t' ∈ t :: (q.toList ++ m.dropped) at ht'
      change t' ∈ m.state.terminatedThreads.toList ++ m.dropped
      rw [hq]
      exact ht'
  | setRsp0 t =>
    obtain rfl := perform_run rfl hp
    cases hp
    exact ⟨_,_,_,_,h.quiet rfl rfl rfl rfl rfl rfl (h.knows.congr rfl rfl rfl rfl rfl) hf⟩
  | switchStack n =>
    obtain rfl := perform_run rfl hp
    cases hp
    exact h.switch ha.1 ha.2.1 ha.2.2 hf
  | lookupIsr v =>
    obtain rfl := perform_run rfl hp
    cases hp
    exact ⟨_,_,_,_,h.quiet rfl rfl rfl rfl rfl rfl h.knows hf⟩
  | replaceIsr v =>
    obtain rfl := perform_run rfl hp
    cases hp
    refine ⟨_,_,_,_,h.quiet rfl rfl rfl rfl rfl rfl ?_ hf⟩
    exact ⟨h.knows.ie,h.knows.free,h.knows.taken,(fun _ _ hn => by cases hn),h.knows.buffer,h.knows.nic⟩
  | fetchTime =>
    obtain rfl := perform_run rfl hp
    cases hp
    exact ⟨_,_,_,_,h.quiet rfl rfl rfl rfl rfl rfl (h.knows.congr rfl rfl rfl rfl rfl) hf⟩
  | swapKeyboardBuffer =>
    obtain rfl := perform_run rfl hp
    cases hp
    refine ⟨_,_,_,_,h.quiet rfl rfl rfl rfl rfl rfl ?_ hf⟩
    exact ⟨h.knows.ie,h.knows.free,h.knows.taken,h.knows.isrs,fun _ _ => rfl,h.knows.nic⟩
  | receive packet =>
    obtain rfl := perform_run rfl hp
    cases hp
    refine ⟨_,_,_,_,h.quiet rfl rfl rfl rfl rfl rfl ?_ hf⟩
    refine ⟨h.knows.ie,h.knows.free,h.knows.taken,h.knows.isrs,h.knows.buffer,?_⟩
    intro hie nic hn
    obtain ⟨nic',hn',rfl⟩ := Option.map_eq_some_iff.mp hn
    exact congrArg (fun nic => (Nic.receive nic packet).2) (h.knows.nic hie nic' hn')
  | popPacket =>
    obtain rfl := perform_run rfl hp
    cases hp
    refine ⟨_,_,_,_,h.quiet rfl rfl rfl rfl rfl rfl ?_ hf⟩
    exact ⟨h.knows.ie,h.knows.free,h.knows.taken,h.knows.isrs,h.knows.buffer,fun _ _ hn => by cases hn⟩
  | act =>
    cases label with
    | act a =>
      cases hp
      exact ⟨_,_,_,_,h.quiet rfl rfl rfl rfl rfl rfl h.knows hf⟩
    | _ => cases hp
  | flip =>
    cases label with
    | flip b =>
      cases hp
      exact ⟨_,_,_,_,h.quiet rfl rfl rfl rfl rfl rfl h.knows hf⟩
    | _ => cases hp
  | halt => exact r.elim

end Inv

theorem facts_known (m : Machine) (thread : Bool) :
    { m with intEnabled := false }.Knows ⟨.interrupt,thread,.rest,some false,m.facts⟩ := by
  refine ⟨fun b hb => Option.some.inj hb,?_,?_,?_,fun _ hb => hb,?_⟩
  · intro _ l hl hlocked
    have hfree := (List.mem_filter.mp hl).2
    change m.locked l = true at hlocked
    rw [hlocked] at hfree
    cases hfree
  · intro _ l hl
    obtain ⟨hmem,hlocked⟩ := List.mem_filter.mp hl
    rw [List.mem_singleton.mp hmem] at hlocked ⊢
    exact ⟨rfl,hlocked,rfl⟩
  · exact fun _ isrs hk => Option.some.inj hk
  · exact fun _ nic hk => Option.some.inj hk

theorem free_of_unlocked {l : Lock} (hm : l ∈ [Lock.intVectors,.keyboard,.com1,.allocator])
    (hl : m.locked l = false) : l ∈ m.facts.free :=
  List.mem_filter.mpr ⟨hm,by rw [hl]; rfl⟩

theorem calm_of_triggerFree {i : Interrupt} (hk : m.locked .keyboard = false) (h : m.triggerFree i = true) :
    Calm m.facts i := by
  have hkey : Lock.keyboard ∈ m.facts.free := free_of_unlocked (by decide) hk
  cases i with
  | pit => trivial
  | keyboard scan =>
    cases scan with
    | incomplete => exact hkey
    | event =>
      rw [triggerFree,Bool.or_eq_true] at h
      exact ⟨hkey,h.imp id fun ha => free_of_unlocked (by decide) ((Bool.not_eq_true' _).mp ha)⟩
    | fault => exact ⟨hkey,free_of_unlocked (by decide) ((Bool.not_eq_true' _).mp h)⟩
  | rtl8139 rx tx packets =>
    intro hrx
    rw [triggerFree,hrx,Bool.not_true,Bool.false_or,Bool.or_eq_true,Bool.or_eq_true] at h
    rcases h with (hf | ht) | hw
    · exact .inl (free_of_unlocked (by decide) ((Bool.not_eq_true' _).mp hf))
    · exact .inr (.inl (List.mem_filter.mpr ⟨List.mem_singleton_self _,ht⟩))
    · exact .inr (.inr ⟨m.nic,rfl,(Bool.not_eq_true' _).mp hw⟩)

/-- Every step that the mode permits keeps the invariant. -/
theorem Ok.step (h : m.Ok mode) (hpermits : m.Permits mode label) (hstep : m.exec label = some m') :
    m'.Ok mode := by
  obtain ⟨φ,f,fs,g,h⟩ := h
  cases Step.of_exec hstep with
  | interrupt i hie =>
    obtain ⟨hints,hkeyboard⟩ := h.sections.disabled hie
    refine h.interrupt hie (facts_known m _) (dispatchInterrupt_follows fun hg => ?_)
    have hfree := hpermits.guarded hg
    refine ⟨free_of_unlocked (by decide) hints,m.isrs,rfl,?_⟩
    rw [handlerFree] at hfree
    split
    · rename_i hv
      rw [if_pos hv] at hfree
      exact calm_of_triggerFree hkeyboard hfree
    · rename_i hv
      rw [if_neg hv] at hfree
      exact free_of_unlocked (by decide) ((Bool.not_eq_true' _).mp hfree)
  | iret hs hh =>
    obtain ⟨rfl,rfl⟩ := List.cons.inj (h.stack.symm.trans hs)
    exact h.iret
  | call hs =>
    obtain ⟨rfl,rfl⟩ := List.cons.inj (h.stack.symm.trans hs)
    exact ⟨_,_,_,_,h.call⟩
  | op hs hp =>
    obtain ⟨rfl,rfl⟩ := List.cons.inj (h.stack.symm.trans hs)
    exact h.op hp (h.possible hp hpermits.clean) hpermits.clean

/-- The boot code starts with nothing locked. -/
theorem Ok.start (mode : Mode) (idle : Thread) (isrs : Vector → Bool) (time : Nat) (nic : Nic) :
    (start idle isrs time nic).Ok mode := by
  refine ⟨.rest,⟨Kernel.call (.user false []),.user []⟩,[],inUser false [] .empty,?_⟩
  constructor
  case stack => rfl
  case runs =>
    refine ⟨rfl,rfl,by rintro ⟨⟩,fun _ => rfl,?_⟩
    exact ⟨⟨fun _ hl => absurd hl List.not_mem_nil,rfl,rfl,rfl,rfl⟩,fun _ hf => hf.elim⟩
  case knows => exact Knows.of_enabled (by rintro ⟨⟩) fun _ => rfl
  case sections => exact ⟨rfl,rfl,fun _ => ⟨rfl,rfl⟩⟩
  case waits => exact fun _ hf => absurd hf List.not_mem_nil
  case parked =>
    intro c hc
    cases c with
    | boot => exact absurd rfl hc
    | thread t =>
      by_cases ht : t = idle
      · simp only [Machine.start, if_pos ht]
        exact (Inv.parked_kickoff mode t).1
      · exact .inl (if_neg ht)
  case shape =>
    intro c
    cases c with
    | boot => exact ⟨rfl,trivial⟩
    | thread t =>
      by_cases ht : t = idle
      · simp only [Machine.start, if_pos ht]
        exact (Inv.parked_kickoff mode t).2
      · simp only [Machine.start, if_neg ht]
        trivial
  case sched => exact ⟨by rintro ⟨⟩,rfl,rfl⟩
  case idle => exact fun _ => rfl
  case owned =>
    refine ⟨.inr ⟨rfl,rfl,rfl⟩,List.pairwise_singleton _ _,?_⟩
    intro t
    refine List.mem_singleton.trans ?_
    by_cases ht : t = idle
    · simp only [Machine.start, if_pos ht]
      exact ⟨fun _ => List.cons_ne_nil _ _,fun _ => ht⟩
    · simp only [Machine.start, if_neg ht]
      exact ⟨fun heq => absurd heq ht,fun hne => absurd rfl hne⟩
  case kept =>
    exact ⟨nofun,fun _ hb => absurd rfl hb,fun _ _ ht => absurd ht List.not_mem_nil⟩

theorem Ok.of_init (h : system.init m) : m.Ok mode := by
  obtain ⟨idle,isrs,time,nic,rfl⟩ := h
  exact Ok.start mode idle isrs time nic

theorem Ok.of_reachable (h : system.Reachable m) : m.Ok ⟨false,false⟩ :=
  h.invariant (P := fun m => m.Ok ⟨false,false⟩) (fun _ hi => .of_init hi)
    fun _ _ _ hs hstep => hs.step ⟨nofun,nofun⟩ hstep

/-- The invariant holds in every state of a run whose steps the mode permits. -/
theorem Ok.of_restricted {cond : Machine → Label → Prop} (hcond : ∀ m label, cond m label → m.Permits mode label)
    (h : (system.restrict cond).Reachable m) : m.Ok mode :=
  h.invariant (P := fun m => m.Ok mode) (fun _ hi => .of_init hi)
    fun s label _ hs hstep => hs.step (hcond s label hstep.1) hstep.2

end Machine

end HeineOS.Kernel
