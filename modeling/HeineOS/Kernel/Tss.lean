import HeineOS.Kernel.HandOff
import HeineOS.Kernel.Watch
import Mathlib.Data.List.Forall2

/-! The stack that the TSS names. It is set before the stack is switched and once more when a thread starts, and a
third protocol keeps track of who has set it and not switched yet. -/
namespace HeineOS.Kernel
open Lib Scheduler Protocol

/-- What a frame knows about `rsp0`: the stack that it is on, whether its thread has set `rsp0` at its start, and
the thread that it is about to switch to after it has set `rsp0` for it. -/
structure TssView where
  ctx : Ctx
  started : Bool
  aimed : Option Thread

namespace TssView
variable (v : TssView)

def after : (i : Instr) → i.Result → TssView
  | .setRsp0 t, _ => if v.started then { v with aimed := some t } else { v with started := true }
  | .switchStack _, _ => { v with aimed := none }
  | _, _ => v

/-- The boot code switches to the first thread without setting `rsp0`. -/
def Allowed : Instr → Prop
  | .setRsp0 t => v.aimed = none ∧ (v.started = true ∨ v.ctx = .thread t)
  | .switchStack t => v.ctx = .boot ∨ v.aimed = some t
  | .act => v.aimed = none ∧ v.started = true
  | _ => v.aimed = none

def Idle : Prop := v.aimed = none
def Calm (thread : Bool) : Prop := v.aimed = none ∧ v.started = true ∧ (thread = false → v.ctx = .boot)

end TssView

def tssProtocol : Protocol Instr.Result Proc TssView where
  allowed := TssView.Allowed
  next v i r v' := v' = v.after i r
  pre
    | .user thread held, v => v.Calm thread ∧ .allocator ∉ held
    | .cleanup, v => v.Idle
  post
    | .user _ _, _, _ => False
    | .cleanup, v, v' => v' = v

section Programs
variable {α : Type} {v : TssView}

theorem tss_perform {Q : TssView → α → Prop} {i : Instr} {f : i.Result → Code α} (ha : v.Allowed i)
    (hf : ∀ r, tssProtocol.Follows Q (v.after i r) (f r)) : tssProtocol.Follows Q v (perform i >>= f) := by
  refine ⟨ha,?_⟩
  rintro r v' rfl
  exact hf r

theorem tss_last {i : Instr} {Q : TssView → i.Result → Prop} (ha : v.Allowed i)
    (hf : ∀ r, Q (v.after i r) r) : tssProtocol.Follows Q v (perform i) := by
  refine ⟨ha,?_⟩
  rintro r v' rfl
  exact hf r

theorem TssView.of_plain (hv : v.Idle) {i : Instr} (hi : i.plain = true) : v.Allowed i ∧ ∀ r, v.after i r = v := by
  cases i with
  | setRsp0 t => cases hi
  | switchStack t => cases hi
  | act => cases hi
  | _ => exact ⟨hv,fun _ => rfl⟩

private theorem plain_tss (i : Instr) (hi : i.plain = true) : Neutral tssProtocol TssView.Idle (perform i) :=
  fun _ hv => tss_last (TssView.of_plain hv hi).1 (TssView.of_plain hv hi).2

theorem dumpFreeList_tss (lines : List Nat) : Neutral tssProtocol TssView.Idle (dumpFreeList lines) := by
  intro v hv
  have hprint := Neutral.forM (println_neutral plain_tss) lines
  refine tss_perform hv fun _ => Follows.bind ((hprint v hv).mono ?_)
  rintro _ _ rfl
  exact tss_last hv fun _ => rfl

theorem tss_watch : Watch tssProtocol TssView.Idle where
  plain := plain_tss
  alloc _ hv := tss_perform hv fun _ => tss_last hv fun _ => rfl
  dumpFreeList := dumpFreeList_tss
  cleanup _ hv := ⟨hv,fun _ h => h⟩

def TssView.Started (v : TssView) : Prop := v.aimed = none ∧ v.started = true

/-- `rsp0` is set for the thread that is switched to. -/
theorem threadSwitch_tss (next : Thread) : Neutral tssProtocol TssView.Started (threadSwitch next) := by
  intro v hv
  obtain ⟨ctx,started,aimed⟩ := v
  obtain ⟨rfl,rfl⟩ := hv
  refine tss_perform rfl fun flags => tss_perform ⟨rfl,.inl rfl⟩ fun _ => tss_perform (.inr rfl) fun _ => ?_
  exact tss_perform rfl fun _ => tss_last rfl fun _ => rfl

theorem tss_started : Watch tssProtocol TssView.Started where
  plain i hi := (tss_watch.plain i hi).mono fun _ h => h.1
  alloc := tss_watch.alloc.mono fun _ h => h.1
  dumpFreeList lines := (tss_watch.dumpFreeList lines).mono fun _ h => h.1
  cleanup := tss_watch.cleanup.mono fun _ h => h.1

theorem yieldCpu_tss : Neutral tssProtocol TssView.Started yieldCpu := by
  refine (tss_started.tryLock rfl).bind fun taken => ?_
  cases taken with
  | false => exact neutral_pure ()
  | true =>
    refine (tss_started.plain .initialized rfl).bind fun initialized => ?_
    cases initialized with
    | false => exact tss_started.unlock rfl
    | true =>
      have hlocked : Neutral tssProtocol TssView.Started (perform (.isLocked .allocator)) :=
        fun v hv => tss_last hv.1 fun _ => rfl
      refine hlocked.bind fun allocatorLocked => ?_
      cases allocatorLocked with
      | true => exact tss_started.unlock rfl
      | false =>
        refine tss_started.readyDequeue.bind fun next => ?_
        cases next with
        | none => exact tss_started.unlock rfl
        | some next =>
          refine (tss_started.plain .takeActive rfl).bind fun current => ?_
          cases current with
          | none => exact tss_started.panic
          | some current =>
            refine (tss_started.plain (.setActive next) rfl).bind fun _ => tss_started.alloc.bind fun _ => ?_
            refine (tss_started.plain (.enqueueReady current) rfl).bind fun _ => ?_
            exact (threadSwitch_tss next).bind fun _ => tss_started.unlock rfl

theorem exit_tss : Neutral tssProtocol TssView.Started exit := by
  refine (tss_started.lock rfl).bind fun _ => (tss_started.plain .takeActive rfl).bind fun current => ?_
  cases current with
  | none => exact tss_started.panic
  | some current =>
    refine tss_started.readyDequeue.bind fun next => ?_
    cases next with
    | none => exact tss_started.panic
    | some next =>
      refine (tss_started.plain (.setActive next) rfl).bind fun _ => tss_started.alloc.bind fun _ => ?_
      refine (tss_started.plain (.enqueueTerminated current) rfl).bind fun _ => ?_
      exact (threadSwitch_tss next).bind fun _ => tss_started.unlock rfl

theorem schedule_tss : Keeps tssProtocol (TssView.Calm · false) schedule := by
  intro v hv
  have hs : v.Started := ⟨hv.1,hv.2.1⟩
  refine (tss_started.lock rfl).then hs fun _ => (tss_started.plain .setInitialized rfl).then hs fun _ => ?_
  refine (tss_started.plain .active rfl).then hs fun active => ?_
  cases active with
  | none =>
    apply (tss_started.panic v hs).mono
    rintro _ _ rfl
    exact hv
  | some t => exact tss_perform (.inl (hv.2.2 rfl)) fun _ => ⟨rfl,fun r => r.elim⟩

theorem register_tss (u : Vector) : Neutral tssProtocol TssView.Started (register u) := by
  have hsetInt : ∀ b, Neutral tssProtocol TssView.Started (setInt b) := fun b v hv => tss_last hv.1 fun _ => rfl
  have hflag : Neutral tssProtocol TssView.Started (perform .isIntEnabled) := tss_started.plain .isIntEnabled rfl
  refine hflag.bind fun ie => (hsetInt false).bind fun _ => (tss_started.lock rfl).bind fun _ => ?_
  refine (tss_started.plain (.replaceIsr u) rfl).bind fun replaced => ?_
  have hend : Neutral tssProtocol TssView.Started (do unlock .intVectors; if ie = true then setInt true) := by
    refine (tss_started.unlock rfl).bind fun _ => ?_
    cases ie with
    | false => exact neutral_pure ()
    | true => exact hsetInt true
  cases replaced with
  | false => exact hend
  | true =>
    refine (tss_started.plain .flip rfl).bind fun sized => ?_
    cases sized with
    | false => exact hend
    | true => exact tss_started.alloc.bind fun _ => hend

theorem dispatchInterrupt_tss (hv : v.Started) (i : Interrupt) :
    tssProtocol.Follows (fun v' _ => v'.aimed = none) v (dispatchInterrupt i) := by
  have hyield : tssProtocol.Follows (fun v' _ => v' = v) v yieldCpu := yieldCpu_tss v hv
  apply (tss_started.dispatchInterrupt (R := fun v v' => v' = v) hv rfl ?_ hyield i).mono
  · rintro _ _ rfl
    exact hv.1
  · rintro _ rfl
    exact hv

theorem body_tss : tssProtocol.Sound Proc.body := by
  intro p v hp
  cases p with
  | user thread held =>
    obtain ⟨hv,hheld⟩ := hp
    have hcalm : ∀ v : TssView, v.Calm thread → v.Started := fun v h => ⟨h.1,h.2.1⟩
    refine tss_perform ⟨hv.1,hv.2.1⟩ fun a => Follows.bind (Follows.mono ?_ (tss_started.doAct hcalm
      (yieldCpu_tss.mono hcalm).keeps (exit_tss.mono hcalm).keeps (fun u => ((register_tss u).mono hcalm).keeps)
      ?_ hv hheld a))
    · exact fun v' held' h => ⟨h,fun _ hf => hf.elim⟩
    · rintro rfl
      exact schedule_tss
  | cleanup => exact tss_watch.cleanup_body v hp

/-- A thread sets `rsp0` for itself when it starts. -/
theorem kickoff_tss {Q : TssView → Unit → Prop} (t : Thread) :
    tssProtocol.Follows Q ⟨.thread t,false,none⟩ (kickoff t) := by
  refine tss_perform rfl fun _ => tss_perform rfl fun _ => tss_perform ⟨rfl,.inr rfl⟩ fun _ => ?_
  exact tss_perform rfl fun _ => ⟨⟨⟨rfl,rfl,nofun⟩,List.not_mem_nil⟩,fun _ hf => hf.elim⟩

end Programs

/-- The code of a frame on a stack keeps to the protocol. -/
structure Aims (c : Ctx) (f : Frame) (v : TssView) : Prop where
  ctx : v.ctx = c
  handler : f.own.handler = true → v.started = true
  follows : tssProtocol.Follows (fun v _ => v.aimed = none) v f.code

/-- The threads that frames are about to switch to. -/
def aimed (vs : List TssView) : List Thread := vs.filterMap TssView.aimed

namespace Machine
variable {m m' : Machine} {label : Label} {vs : List TssView}

/-- `rsp0` is what the one frame in front of a switch has set it to. Without such a frame it is the running
thread, once that has started. -/
def Aimed (m : Machine) (vs : List TssView) : List Thread → Prop
  | [] => ∀ t, m.cur = .thread t → m.rsp0 = .thread t ∨ ∃ v ∈ vs, v.started = false
  | [n] => m.rsp0 = .thread n
  | _ => False

/-- A stack that does not run has nobody in front of a switch. -/
def Unaimed (c : Ctx) (fs : List Frame) : Prop := ∃ vs, List.Forall₂ (Aims c) fs vs ∧ ∀ v ∈ vs, v.aimed = none

structure TssInv (m : Machine) (vs : List TssView) : Prop where
  views : List.Forall₂ (Aims m.cur) (m.stack m.cur) vs
  aimed : m.Aimed vs (aimed vs)
  parked : ∀ c, c ≠ m.cur → Unaimed c (m.stack c)
  boot : m.cur = .boot → ∀ t, m.stack (.thread t) = [] ∨ m.stack (.thread t) = [⟨kickoff t,.fresh⟩]

end Machine

section
variable {c : Ctx} {f : Frame} {fs : List Frame} {v : TssView} {vs : List TssView}

@[simp] theorem aimed_cons_none (h : v.aimed = none) : aimed (v :: vs) = aimed vs := List.filterMap_cons_none h

@[simp] theorem aimed_cons_some {n : Thread} (h : v.aimed = some n) : aimed (v :: vs) = n :: aimed vs :=
  List.filterMap_cons_some h

theorem aimed_eq_nil (h : ∀ v ∈ vs, v.aimed = none) : aimed vs = [] := List.filterMap_eq_nil_iff.mpr h

/-- A frame that has set `rsp0` for another thread switches next. -/
theorem Aims.switches (h : Aims c f v) {n : Thread} (hv : v.aimed = some n) :
    ∃ t k, f.code = .op (.switchStack t) k := by
  have hne : v.aimed ≠ none := by
    rw [hv]
    nofun
  obtain ⟨code,own⟩ := f
  have hf := h.follows
  cases code with
  | pure a => exact absurd hf hne
  | call p k =>
    cases p with
    | user thread held => exact absurd hf.1.1.1 hne
    | cleanup => exact absurd hf.1 hne
  | op i k =>
    cases i with
    | switchStack t => exact ⟨t,k,rfl⟩
    | setRsp0 t => exact absurd hf.1.1 hne
    | act => exact absurd hf.1.1 hne
    | _ => exact absurd hf.1 hne

theorem aims_kickoff (t : Thread) : Aims (.thread t) ⟨kickoff t,.fresh⟩ ⟨.thread t,false,none⟩ :=
  ⟨rfl,nofun,kickoff_tss t⟩

theorem unaimed_kickoff (t : Thread) : Machine.Unaimed (.thread t) [⟨kickoff t,.fresh⟩] := by
  refine ⟨[⟨.thread t,false,none⟩],.cons (aims_kickoff t) .nil,?_⟩
  intro v hv
  rw [List.mem_singleton.mp hv]

end

namespace Machine
variable {m m' : Machine} {label : Label} {v : TssView} {vs : List TssView} {fs : List Frame} {o : Own}

/-- A frame in front of a switch holds the scheduler. -/
private theorem live_of_switches {mode : Mode} {c : Ctx} {φ : Phase} {f : Frame} {g : Local}
    (h : Runs mode c φ f g) {t : Thread} {k : Unit → Code Unit} (hf : f.code = .op (.switchStack t) k) :
    f.own.sched = .live := by
  have ha := h.follows
  rw [hf] at ha
  rw [← h.own]
  exact ha.1.1

private theorem top_live {mode : Mode} (hok : m.Ok mode) {f : Frame} (hs : m.stack m.cur = f :: fs) {t : Thread}
    {k : Unit → Code Unit} (hf : f.code = .op (.switchStack t) k) : f.own.sched = .live := by
  obtain ⟨_,_,_,_,h⟩ := hok
  obtain ⟨rfl,rfl⟩ := List.cons.inj (h.stack.symm.trans hs)
  exact live_of_switches h.runs hf

/-- Below a frame that holds the scheduler nobody is in front of a switch. -/
private theorem below_unaimed {mode : Mode} (hok : m.Ok mode) {f : Frame} (hs : m.stack m.cur = f :: fs)
    (hl : f.own.sched = .live) (hvs : List.Forall₂ (Aims m.cur) fs vs) : ∀ v ∈ vs, v.aimed = none := by
  obtain ⟨_,_,_,_,h⟩ := hok
  obtain ⟨rfl,rfl⟩ := List.cons.inj (h.stack.symm.trans hs)
  have hnot := (h.sched.of_live hl).2.not_live
  have hwaits := h.waits
  clear h hs
  induction hvs with
  | nil => exact fun _ hv => absurd hv List.not_mem_nil
  | @cons f' v fs vs hf _ ih =>
    intro w hw
    rcases List.mem_cons.mp hw with rfl | hw
    · cases ha : w.aimed with
      | none => rfl
      | some n =>
        obtain ⟨t,k,hc⟩ := hf.switches ha
        obtain ⟨g,hr,_⟩ := hwaits f' List.mem_cons_self
        exact absurd (live_of_switches hr hc) (hnot f' List.mem_cons_self)
    · exact ih (fun f'' hf'' => hnot f'' (List.mem_cons_of_mem _ hf''))
        (fun f'' hf'' => hwaits f'' (List.mem_cons_of_mem _ hf'')) w hw

private theorem Aimed.congr {ns : List Thread} (h : m.Aimed vs ns) (hcur : m'.cur = m.cur)
    (hrsp : m'.rsp0 = m.rsp0) : m'.Aimed vs ns := by
  match ns with
  | [] =>
    intro t ht
    rw [hrsp]
    exact h t (hcur ▸ ht)
  | [n] => exact hrsp.trans h
  | _ :: _ :: _ => exact h.elim

namespace TssInv

/-- The running stack changes and no other. -/
private theorem advance (h : m.TssInv vs) (hcur : m'.cur = m.cur) (hstack : ∀ c, m.SameStack m' c)
    {fs' : List Frame} {vs' : List TssView} (hviews : List.Forall₂ (Aims m.cur) fs' vs')
    (haimed : m'.Aimed vs' (Kernel.aimed vs')) : (m'.setStack m.cur fs').TssInv vs' where
  views := by
    change List.Forall₂ (Aims m'.cur) ((m'.setStack m.cur fs').stack m'.cur) vs'
    rw [hcur,setStack_self]
    exact hviews
  aimed := haimed.congr rfl rfl
  parked := by
    intro c hc
    change c ≠ m'.cur at hc
    rw [hcur] at hc
    rw [setStack_ne _ hc]
    rcases hstack c with hs | ⟨t,rfl,_,hs⟩
    · rw [hs]
      exact h.parked c hc
    · rw [hs]
      exact unaimed_kickoff t
  boot := by
    intro hb t
    have hboot : m.cur = .boot := hcur.symm.trans hb
    have ht : Ctx.thread t ≠ m.cur := by
      rw [hboot]
      nofun
    rw [setStack_ne _ ht]
    rcases hstack (.thread t) with hs | ⟨t',ht',_,hs⟩
    · rw [hs]
      exact h.boot hboot t
    · obtain rfl := Ctx.thread.inj ht'
      exact .inr hs

private theorem aims_after {i : Instr} {k : i.Result → Code Unit} {c : Ctx} (h : Aims c ⟨.op i k,o⟩ v) (r : i.Result) :
    Aims c ⟨k r,o.after i r⟩ (v.after i r) := by
  have hafter : (v.after i r).ctx = v.ctx ∧ (v.started = true → (v.after i r).started = true) := by
    cases i with
    | setRsp0 t =>
      rw [TssView.after]
      split
      · exact ⟨rfl,id⟩
      · exact ⟨rfl,fun _ => rfl⟩
    | _ => exact ⟨rfl,id⟩
  refine ⟨hafter.1.trans h.ctx,?_,h.follows.2 r _ rfl⟩
  intro hh
  rw [Own.after_handler] at hh
  exact hafter.2 (h.handler hh)

/-- An instruction that neither sets `rsp0` nor switches. -/
private theorem quiet {i : Instr} {k : i.Result → Code Unit} {r : i.Result} (h : m.TssInv vs)
    (hs : m.stack m.cur = ⟨.op i k,o⟩ :: fs) (hsw : ∀ n, i ≠ .switchStack n) (hset : ∀ t, i ≠ .setRsp0 t)
    (hp : m.perform i label = some (r,m')) : (m'.setStack m.cur (⟨k r,o.after i r⟩ :: fs)).TssInv vs := by
  have hm := effect_of_perform hp
  have hviews := h.views
  rw [hs] at hviews
  have hsame : ∀ v : TssView, v.after i r = v := by
    intro v
    cases i with
    | switchStack n => exact absurd rfl (hsw n)
    | setRsp0 t => exact absurd rfl (hset t)
    | _ => rfl
  refine h.advance (hm.cur hsw) hm.stack ?_ (h.aimed.congr (hm.cur hsw) (hm.rsp0 hset))
  cases hviews with
  | @cons _ v _ _ hf hfs =>
    have haims := aims_after hf r
    rw [hsame v] at haims
    exact .cons haims hfs

/-- A thread sets `rsp0` for itself, or for the one that it switches to next. -/
private theorem setRsp0 {t : Thread} {k : Unit → Code Unit} (h : m.TssInv vs)
    (hs : m.stack m.cur = ⟨.op (.setRsp0 t) k,o⟩ :: fs) (hshape : o.handler = !fs.isEmpty)
    (hok : ((m.setRsp0 t).setStack m.cur (⟨k (),o⟩ :: fs)).Ok ⟨false,false⟩) :
    ∃ vs', ((m.setRsp0 t).setStack m.cur (⟨k (),o⟩ :: fs)).TssInv vs' := by
  have hviews := h.views
  rw [hs] at hviews
  cases hviews with
  | @cons _ v _ ws hf hfs =>
    have haims := aims_after hf ()
    obtain ⟨hnone,hself⟩ := hf.follows.1
    cases hst : v.started with
    | false =>
      have hcur : m.cur = .thread t := by
        rcases hself with hself | hself
        · rw [hst] at hself
          cases hself
        · exact hf.ctx.symm.trans hself
      have hnil : fs = [] := by
        cases hh : o.handler with
        | true =>
          rw [hf.handler hh] at hst
          cases hst
        | false =>
          rw [hh] at hshape
          cases fs with
          | nil => rfl
          | cons f fs => cases hshape
      subst hnil
      cases hfs
      refine ⟨[v.after (.setRsp0 t) ()],?_⟩
      refine advance h ?_ ?_ (.cons haims .nil) ?_
      · rfl
      · exact fun _ => .inl rfl
      · have hafter : v.after (.setRsp0 t) () = { v with started := true } := by
          rw [TssView.after,hst]
          rfl
        have hunaimed : ({ v with started := true } : TssView).aimed = none := hnone
        rw [hafter,aimed_cons_none hunaimed]
        intro t' ht'
        rw [← ht']
        exact .inl hcur.symm
    | true =>
      have hafter : v.after (.setRsp0 t) () = { v with aimed := some t } := by
        rw [TssView.after,hst]
        rfl
      rw [hafter] at haims
      obtain ⟨n,k',hcode⟩ := haims.switches rfl
      have hlive := top_live hok (setStack_self _ _ _) hcode
      have hbelow := below_unaimed hok (setStack_self _ _ _) hlive hfs
      refine ⟨{ v with aimed := some t } :: ws,?_⟩
      refine advance h ?_ ?_ (.cons haims hfs) ?_
      · rfl
      · exact fun _ => .inl rfl
      · rw [aimed_cons_some rfl,aimed_eq_nil hbelow]
        rfl

/-- After a switch the running thread is the one that `rsp0` was set for, or it is about to start. -/
private theorem switch {n : Thread} {k : Unit → Code Unit} (h : m.TssInv vs)
    (hs : m.stack m.cur = ⟨.op (.switchStack n) k,o⟩ :: fs) (hok : m.Ok ⟨false,false⟩)
    (hcur : m'.cur = .thread n) (hrsp : m'.rsp0 = m.rsp0)
    (hself : m'.stack m.cur = ⟨k (),o.after (.switchStack n) ()⟩ :: fs)
    (hother : ∀ c, c ≠ m.cur → m'.stack c = m.stack c) (hne : m'.stack m'.cur ≠ []) : ∃ vs', m'.TssInv vs' := by
  have hviews := h.views
  rw [hs] at hviews
  cases hviews with
  | @cons _ v _ ws hf hfs =>
    have hbelow := below_unaimed hok hs (top_live hok hs rfl) hfs
    have hleft : Unaimed m.cur (m'.stack m.cur) := by
      rw [hself]
      refine ⟨_,.cons (aims_after hf ()) hfs,?_⟩
      intro w hw
      rcases List.mem_cons.mp hw with rfl | hw
      · rfl
      · exact hbelow w hw
    have hall : ∀ c, Unaimed c (m'.stack c) := by
      intro c
      by_cases hc : c = m.cur
      · rw [hc]
        exact hleft
      · rw [hother c hc]
        exact h.parked c hc
    have hboot : m'.cur ≠ .boot := by
      rw [hcur]
      nofun
    rcases hf.follows.1 with hctx | haim
    · have hb : m.cur = .boot := hf.ctx.symm.trans hctx
      have hnew : m'.stack m'.cur = [⟨kickoff n,.fresh⟩] := by
        have hn : Ctx.thread n ≠ m.cur := by
          rw [hb]
          nofun
        rw [hcur,hother _ hn] at hne ⊢
        exact (h.boot hb n).resolve_left hne
      refine ⟨[⟨.thread n,false,none⟩],?_,?_,fun c _ => hall c,fun hc => absurd hc hboot⟩
      · rw [hnew,hcur]
        exact .cons (aims_kickoff n) .nil
      · exact fun _ _ => .inr ⟨_,List.mem_singleton_self _,rfl⟩
    · have htarget := h.aimed
      rw [aimed_cons_some haim,aimed_eq_nil hbelow] at htarget
      obtain ⟨vs',hvs',hnone⟩ := hall m'.cur
      refine ⟨vs',hvs',?_,fun c _ => hall c,fun hc => absurd hc hboot⟩
      rw [aimed_eq_nil hnone]
      intro t ht
      rw [hrsp,← ht,hcur]
      exact .inl htarget

private theorem interrupt (h : m.TssInv vs) (i : Interrupt) :
    ({ m with intEnabled := false }.setStack m.cur (⟨dispatchInterrupt i,.interrupt⟩ :: m.stack m.cur)).TssInv
      (⟨m.cur,true,none⟩ :: vs) := by
  have hhandler : Aims m.cur ⟨dispatchInterrupt i,.interrupt⟩ ⟨m.cur,true,none⟩ :=
    ⟨rfl,fun _ => rfl,dispatchInterrupt_tss ⟨rfl,rfl⟩ i⟩
  refine advance h ?_ ?_ (.cons hhandler h.views) ?_
  · rfl
  · exact fun _ => .inl rfl
  · rw [aimed_cons_none rfl]
    have haimed := h.aimed
    cases hns : Kernel.aimed vs with
    | nil =>
      rw [hns] at haimed
      intro t ht
      rcases haimed t ht with hr | ⟨v,hv,hst⟩
      · exact .inl hr
      · exact .inr ⟨v,List.mem_cons_of_mem _ hv,hst⟩
    | cons n ns =>
      rw [hns] at haimed
      cases ns with
      | nil => exact haimed
      | cons n' ns => exact haimed.elim

private theorem iret (h : m.TssInv vs) (hs : m.stack m.cur = ⟨.pure (),o⟩ :: fs) (hh : o.handler = true) :
    ∃ vs', ({ m with intEnabled := true }.setStack m.cur fs).TssInv vs' := by
  have hviews := h.views
  rw [hs] at hviews
  cases hviews with
  | @cons _ v _ ws hf hfs =>
    have hst : v.started = true := hf.handler hh
    have hnone : v.aimed = none := hf.follows
    refine ⟨ws,advance h ?_ ?_ hfs ?_⟩
    · rfl
    · exact fun _ => .inl rfl
    · have haimed := h.aimed
      rw [aimed_cons_none hnone] at haimed
      cases hns : Kernel.aimed ws with
      | nil =>
        rw [hns] at haimed
        intro t ht
        rcases haimed t ht with hr | ⟨w,hw,hw'⟩
        · exact .inl hr
        · rcases List.mem_cons.mp hw with rfl | hw
          · rw [hst] at hw'
            cases hw'
          · exact .inr ⟨w,hw,hw'⟩
      | cons n ns =>
        rw [hns] at haimed
        cases ns with
        | nil => exact haimed
        | cons n' ns => exact haimed.elim

private theorem call {p : Proc} {k : Code Unit} (h : m.TssInv vs) (hs : m.stack m.cur = ⟨.call p k,o⟩ :: fs) :
    (m.setStack m.cur (⟨p.body >>= fun _ => k,o⟩ :: fs)).TssInv vs := by
  have hviews := h.views
  rw [hs] at hviews
  refine advance h rfl (fun _ => .inl rfl) ?_ h.aimed
  cases hviews with
  | cons hf hfs => exact .cons ⟨hf.ctx,hf.handler,Follows.unfold body_tss hf.follows⟩ hfs

end TssInv

def TssOk (m : Machine) : Prop := ∃ vs, m.TssInv vs

theorem TssOk.step (h : m.TssOk) (hok : m.Ok ⟨false,false⟩) (hstep : m.exec label = some m') : m'.TssOk := by
  have hok' : m'.Ok ⟨false,false⟩ := hok.step ⟨nofun,nofun⟩ hstep
  obtain ⟨vs,h⟩ := h
  cases Step.of_exec hstep with
  | interrupt i hie => exact ⟨_,h.interrupt i⟩
  | iret hs hh => exact h.iret hs hh
  | call hs => exact ⟨vs,h.call hs⟩
  | @op i k own fs label r m'' hs hp =>
    cases i with
    | setRsp0 t =>
      obtain rfl := perform_run rfl hp
      cases hp
      exact h.setRsp0 hs (hok.shape_top hs) hok'
    | switchStack n =>
      obtain rfl := perform_run rfl hp
      cases hp
      refine h.switch hs hok ?_ ?_ ?_ ?_ hok'.stack_ne_nil
      · rfl
      · rfl
      · exact setStack_self _ _ _
      · exact fun c hc => setStack_ne _ hc _
    | _ => exact ⟨vs,h.quiet hs nofun nofun hp⟩

theorem TssOk.start (idle : Thread) (isrs : Vector → Bool) (time : Nat) (nic : Nic) :
    (start idle isrs time nic).TssOk := by
  have hkickoff : ∀ t, (Machine.start idle isrs time nic).stack (.thread t) = [] ∨
      (Machine.start idle isrs time nic).stack (.thread t) = [⟨kickoff t,.fresh⟩] := by
    intro t
    by_cases ht : t = idle
    · exact .inr (if_pos ht)
    · exact .inl (if_neg ht)
  have hboot : Aims .boot ⟨call (.user false []),.user []⟩ ⟨.boot,true,none⟩ :=
    ⟨rfl,fun _ => rfl,⟨⟨rfl,rfl,fun _ => rfl⟩,List.not_mem_nil⟩,fun _ hf => hf.elim⟩
  refine ⟨[⟨.boot,true,none⟩],.cons hboot .nil,(fun _ ht => nomatch ht),?_,fun _ => hkickoff⟩
  intro c hc
  cases c with
  | boot => exact absurd rfl hc
  | thread t =>
    rcases hkickoff t with hs | hs
    · rw [hs]
      exact ⟨[],.nil,fun _ hv => absurd hv List.not_mem_nil⟩
    · rw [hs]
      exact unaimed_kickoff t

theorem TssOk.of_reachable (hr : system.Reachable m) : m.TssOk := by
  have hboth : m.Ok ⟨false,false⟩ ∧ m.TssOk := by
    apply hr.invariant (P := fun m => m.Ok ⟨false,false⟩ ∧ m.TssOk)
    · intro m hi
      refine ⟨.of_init hi,?_⟩
      obtain ⟨idle,isrs,time,nic,rfl⟩ := hi
      exact TssOk.start idle isrs time nic
    · rintro m label m' ⟨hok,h⟩ hstep
      exact ⟨hok.step ⟨nofun,nofun⟩ hstep,h.step hok hstep⟩
  exact hboth.2

/-- The code of a thread itself runs, outside of the kernel. For a user thread this is ring 3. -/
def InThread (m : Machine) (t : Thread) : Prop :=
  m.cur = .thread t ∧ ∃ code own, m.stack m.cur = [⟨code,own⟩] ∧
    ((∃ thread held k, code = .call (.user thread held) k) ∨ ∃ k, code = .op .act k)

end Machine

/-- In every run of the scheduler, with interrupts at every point where they are enabled: whenever the code of a
thread itself runs, `rsp0` is the top of the thread's own kernel stack. -/
theorem rsp0_names_running_thread {m : Machine} (hr : Machine.system.Reachable m) {t : Thread}
    (ht : m.InThread t) : m.rsp0 = .thread t := by
  obtain ⟨vs,h⟩ := Machine.TssOk.of_reachable hr
  obtain ⟨hcur,code,own,hs,hcode⟩ := ht
  have hviews := h.views
  rw [hs] at hviews
  cases hviews with
  | @cons _ v _ ws hf hfs =>
    cases hfs
    have hcalm : v.Started := by
      rcases hcode with ⟨thread,held,k,rfl⟩ | ⟨k,rfl⟩
      · exact ⟨hf.follows.1.1.1,hf.follows.1.1.2.1⟩
      · exact hf.follows.1
    have haimed := h.aimed
    rw [aimed_cons_none hcalm.1] at haimed
    rcases haimed t hcur with hr | ⟨w,hw,hst⟩
    · exact hr
    · rw [List.mem_singleton.mp hw,hcalm.2] at hst
      cases hst

/-- Two threads: the timer takes the first one off the CPU while it runs, and the second one starts. -/
def preemptedRun : List Label := Machine.script
  [(.run,0),(.act (.ready ⟨1⟩),6),(.act .schedule,9),(.interrupt .pit,25)]

/-- The second thread runs by itself. -/
def Machine.secondRuns (m : Machine) : Bool :=
  match m.cur, m.stack m.cur with
  | .thread ⟨1⟩, [⟨.op .act _,_⟩] => true
  | _, _ => false

theorem Machine.secondRuns_inThread {m : Machine} (h : m.secondRuns = true) : m.InThread ⟨1⟩ := by
  unfold Machine.secondRuns at h
  split at h
  · rename_i hcur hs
    exact ⟨hcur,_,_,hs,.inr ⟨_,rfl⟩⟩
  · cases h

theorem rsp0_names_running_thread_sample :
    ∃ m, Machine.system.Reachable m ∧ m.InThread ⟨1⟩ ∧ m.rsp0 = .thread ⟨1⟩ := by
  have hrun : ((Machine.start ⟨0⟩ (fun _ => true) 0 ⟨0,0⟩).execAll (fun _ _ => true) preemptedRun).any
      Machine.secondRuns = true := by decide +kernel
  obtain ⟨m,hm,hl⟩ := Machine.reachable_of_execAll hrun
  have ht := Machine.secondRuns_inThread hl
  exact ⟨m,hm.of_restrict,ht,rsp0_names_running_thread hm.of_restrict ht⟩

end HeineOS.Kernel
