import HeineOS.Device.Agreement

/-! Wake-ups of the transmit side: who still looks at the descriptor while a frame waits. The handler clears the status
bit behind its look and gives up at a taken lock, so that it depends on what happens in between. -/
namespace HeineOS.Rtl8139
open Lib Protocol

/-- How far the holder of the transmit lock has come: it drops its frame, it has still to look at the descriptor, it
has found no frame or a busy descriptor, or that descriptor has completed since. -/
inductive Found where
  | dropping
  | looking
  | empty
  | busy
  | missed
  deriving DecidableEq

/-- What an observer knows: the status word that the handler has read and not acknowledged yet, whether the handler
relies on a busy descriptor and has found the receive buffer empty since then, and how far the holder of the transmit
lock has come. -/
structure Watch where
  status : InterruptReg
  busy : Bool
  drained : Bool
  hold : Option Found

/-- The observer at the beginning. -/
def Watch.new : Watch := ⟨⟨false,false,false⟩,false,false,none⟩

/-- What the observer knows after an operation. The handler relies on what the holder has found if it does not get the
lock. -/
def watch (c : Ctx) (s : Shared) : (i : Op) → i.Result → Watch → Watch
  | .readInterruptStatus, status, w => { w with status, busy := false, drained := false }
  | .acknowledgeInterrupt _, _, w => { w with status := ⟨false,false,false⟩, busy := false, drained := false }
  | .rxBufferEmpty, empty, w => { w with drained := empty }
  | .lock .tx, _, w => { w with hold := some (if s.history.looking c then .looking else .dropping) }
  | .tryLock .tx, taken, w =>
    if taken then { w with hold := some .looking } else { w with busy := c == .handler && w.hold == some .busy }
  | .unlock .tx, _, w => { w with hold := none }
  | .txSize, n, w => if n = 0 then { w with hold := some .empty } else w
  | .txDescriptorFree, free, w => if free then w else { w with hold := some .busy, busy := c == .handler }
  | .txPop, some none, w => { w with hold := some .empty }
  | _, _, w => w

/-- What the observer knows after a move of the card. -/
def watchEnv : Event → Shared → Watch → Watch
  | .complete desc, s, w =>
    if w.hold = some .busy ∧ desc = s.tx.currentTxDescriptor then { w with hold := some .missed } else w
  | _, _, w => w

def observed : Conc Ctx Act Event (Shared × Watch) Op.Result Proc := driver.observe watch watchEnv

/-- The driver and the card, with the observer. -/
abbrev Observed := Conf Ctx (Shared × Watch) Op.Result Proc

def startObserved (memory : Bytes) : Observed := ⟨((start memory).shared,.new),(start memory).code⟩

def observedSystem : System Observed (Move Ctx Act Event) := observed.system fun s => ∃ memory, s = startObserved memory

theorem reachable_of_observed {s : Observed} (h : observedSystem.Reachable s) : system.Reachable (Conc.unobserved s) := by
  change (driver.system fun s => ∃ memory, s = start memory).Reachable _
  refine Conc.reachable_unobserved ?_ h
  rintro _ ⟨memory,rfl⟩
  exact ⟨memory,rfl⟩

theorem observed_of_execAll {check : Observed → Move Ctx Act Event → Bool} {run : List (Move Ctx Act Event)}
    {s : Observed} (h : observed.execAll check (startObserved fun _ => 0) run = some s) :
    (observedSystem.restrict fun s move => check s move = true).Reachable s :=
  ⟨_,run,⟨_,rfl⟩,Conc.run_of_execAll h⟩

/-! ### What a context has to do -/

/-- How far a context with the transmit lock has come. -/
inductive Hold where
  | dropping
  | looking
  | looked
  deriving DecidableEq

def Found.hold : Found → Hold
  | .dropping => .dropping
  | .looking => .looking
  | .empty | .busy | .missed => .looked

/-- What a context has to do about waiting frames: the handler runs, a thread is on its way to look at the descriptor,
the handler has read the transmit bit, it has found nothing to do or left it to others, and the hold of the lock. -/
structure Duty where
  handler : Bool
  running : Bool
  looking : Bool
  tok : Bool
  settled : Bool
  hold : Option Hold
  deriving DecidableEq

namespace Duty

/-- Between two calls, or two interrupts. -/
def rest (handler : Bool) : Duty := ⟨handler,false,false,false,false,none⟩

variable (g : Duty)

def stop : Duty := { g with looking := false, settled := g.tok, hold := g.hold.map fun _ => .looked }

def after : (i : Op) → i.Result → Duty
  | .act, .transmit data => { g with looking := data.length ≤ 1792 }
  | .awaitInterrupt, _ => { g with running := true }
  | .iret, _ => { g with running := false }
  | .readInterruptStatus, status => { g with tok := status.transmitOk }
  | .acknowledgeInterrupt _, _ => { g with tok := false, settled := false }
  | .lock .tx, _ => { g with hold := some (if g.looking then .looking else .dropping) }
  | .tryLock .tx, r => if r then { g with hold := some .looking } else g.stop
  | .unlock .tx, _ => { g with hold := none }
  | .txSize, n => if n = 0 then g.stop else g
  | .txDescriptorFree, r => if r then g else g.stop
  | .txPop, some none => g.stop
  | _, _ => g

/-- In the loop of `flush_tx_queue`, or in front of it with the lock. -/
structure Flushing : Prop where
  hold : g.hold = some .looking
  due : g.looking = true ∨ g.tok = true
  settled : g.settled = false

def Allowed : Op → Prop
  | .act => g = .rest false
  | .awaitInterrupt => g = .rest true
  | .iret | .readInterruptStatus => g = { rest true with running := true }
  | .acknowledgeInterrupt status => g.running = true ∧ g.hold = none ∧ (status.transmitOk = true → g.settled = true)
  | .lock .tx => g.handler = false ∧ g.hold = none
  | .tryLock .tx => g.hold = none ∧ (g.looking = true ∨ g.tok = true) ∧ g.settled = false
  | .unlock .tx => g.hold.isSome = true
  | .lock .rx | .rxPop | .unlock .rx => g.looking = false
  | .txPush _ | .txSize | .txDescriptorFree | .txPop | .writeTsd _ _ | .nextTxDescriptor => g.Flushing
  | _ => True

end Duty

def duties : Protocol Op.Result Proc Duty where
  allowed := Duty.Allowed
  next g i r g' := g' = g.after i r
  pre
    | .flushLoop, g => g.Flushing
    | .rxLoop, _ => True
    | .handler, g => g = .rest true
    | .thread, g => g = .rest false
  post
    | .flushLoop, g, g' => g' = g.stop
    | .rxLoop, g, g' => g' = g
    | .handler, _, _ | .thread, _, _ => False

section
variable {α : Type} {g : Duty}

private theorem perform_duties {Q : Duty → α → Prop} {i : Op} {f : i.Result → Code α} (ha : g.Allowed i)
    (hf : ∀ r, duties.Follows Q (g.after i r) (f r)) : duties.Follows Q g (perform i >>= f) := by
  refine ⟨ha,?_⟩
  intro r g' hn
  rw [hn]
  exact hf r

private theorem last_duties {i : Op} {Q : Duty → i.Result → Prop} (ha : g.Allowed i)
    (hf : ∀ r, Q (g.after i r) r) : duties.Follows Q g (perform i) := by
  refine ⟨ha,?_⟩
  intro r g' hn
  rw [hn]
  exact hf r

/-- A panic is no concern here. -/
private theorem panic_duties {Q : Duty → Unit → Prop} : duties.Follows Q g panic :=
  ⟨trivial,fun r => r.elim⟩

private theorem check_duties {Q : Duty → α → Prop} {b : Bool} {f : Unit → Code α}
    (h : duties.Follows Q g (f ())) : duties.Follows Q g (check b >>= f) := by
  cases b with
  | false => exact ⟨trivial,fun r => r.elim⟩
  | true => exact h

/-- A flush stops the look of its caller, whether it gets the lock or not. -/
private theorem flushTxQueue_duties {Q : Duty → Unit → Prop} (hhold : g.hold = none)
    (hdue : g.looking = true ∨ g.tok = true) (hsettled : g.settled = false) (hQ : Q g.stop ()) :
    duties.Follows Q g flushTxQueue := by
  refine perform_duties ⟨hhold,hdue,hsettled⟩ fun taken => ?_
  cases taken with
  | false => exact hQ
  | true =>
    refine ⟨⟨rfl,hdue,hsettled⟩,?_⟩
    intro g' hg'
    rw [hg']
    refine last_duties rfl fun _ => ?_
    have hsame : g.stop = { g.stop with hold := none } := by
      rw [Duty.stop,hhold]
      rfl
    rw [hsame] at hQ
    exact hQ

private theorem flushRound_duties (hg : g.Flushing) :
    duties.Follows (fun g' _ => g' = g.stop) g flushRound := by
  refine perform_duties hg fun size => ?_
  by_cases hs : size = 0
  · rw [hs]
    rfl
  · have hpos : size > 0 := Nat.pos_of_ne_zero hs
    have hstay : g.after .txSize size = g := if_neg hs
    rw [if_pos hpos,hstay]
    refine perform_duties hg fun free => ?_
    cases free with
    | false => rfl
    | true =>
      refine perform_duties hg fun r => ?_
      match r with
      | none => exact panic_duties
      | some none => rfl
      | some (some frame) =>
        refine perform_duties trivial fun desc => ?_
        refine perform_duties trivial fun copied => ?_
        apply check_duties
        refine perform_duties trivial fun _ => ?_
        refine perform_duties hg fun _ => ?_
        refine perform_duties hg fun _ => ?_
        exact ⟨hg,fun _ h => h⟩

private theorem transmit_duties (data : List UInt8) :
    duties.Follows (fun g' _ => g' = .rest false) { Duty.rest false with looking := data.length ≤ 1792 }
      (transmit data) := by
  refine perform_duties ⟨rfl,rfl⟩ fun _ => ?_
  split
  · rename_i hlarge
    have hidle : decide (data.length ≤ 1792) = false := decide_eq_false (Nat.not_le.mpr hlarge)
    refine last_duties rfl fun _ => ?_
    rw [hidle]
    rfl
  · rename_i hsmall
    have hlooking : decide (data.length ≤ 1792) = true := decide_eq_true (Nat.not_lt.mp hsmall)
    rw [hlooking]
    refine perform_duties ⟨rfl,.inl rfl,rfl⟩ fun _ => ?_
    apply check_duties
    refine perform_duties rfl fun _ => ?_
    exact flushTxQueue_duties rfl (.inl rfl) rfl rfl

private theorem rxRound_duties : duties.Follows (fun g' _ => g' = g) g rxRound := by
  refine perform_duties trivial fun empty => ?_
  cases empty with
  | true => rfl
  | false =>
    refine perform_duties trivial fun offset => ?_
    refine perform_duties trivial fun r => ?_
    cases r with
    | none => exact panic_duties
    | some header =>
      have hadvance : duties.Follows (fun g' _ => g' = g) g (do
          perform (.setRxReadOffset (nextOffset offset (header >>> 16).toNat))
          perform (.writeCapr (BitVec.ofNat 16 (nextOffset offset (header >>> 16).toNat) - 16))
          call .rxLoop) := by
        refine perform_duties trivial fun _ => ?_
        refine perform_duties trivial fun _ => ?_
        exact ⟨trivial,fun _ h => h⟩
      dsimp only
      split
      · split
        · refine perform_duties trivial fun stored => ?_
          apply check_duties
          exact hadvance
        · exact hadvance
      · exact hadvance

private theorem processRxBuffer_duties {Q : Duty → Unit → Prop} (hg : g.looking = false) (hQ : Q g ()) :
    duties.Follows Q g processRxBuffer := by
  refine perform_duties trivial fun taken => ?_
  cases taken with
  | false => exact hQ
  | true =>
    refine ⟨trivial,?_⟩
    intro g' hg'
    rw [hg']
    exact last_duties hg fun _ => hQ

private theorem receivePacket_duties (hg : g.looking = false) :
    duties.Follows (fun g' _ => g' = g) g receivePacket := by
  refine perform_duties hg fun _ => perform_duties hg fun r => ?_
  cases r with
  | none => exact panic_duties
  | some frame => exact last_duties hg fun _ => rfl

private theorem trigger_duties :
    duties.Follows (fun g' _ => g' = { Duty.rest true with running := true })
      { Duty.rest true with running := true } trigger := by
  refine perform_duties rfl fun status => ?_
  have htx : duties.Follows (fun g' _ => g' = { Duty.rest true with running := true })
      { Duty.rest true with running := true, tok := status.transmitOk } (do
        if status.transmitOk then flushTxQueue
        perform (.acknowledgeInterrupt status)) := by
    cases htok : status.transmitOk with
    | false =>
      refine last_duties ⟨rfl,rfl,fun ht => ?_⟩ fun _ => rfl
      rw [htok] at ht
      cases ht
    | true =>
      refine Follows.bind (flushTxQueue_duties rfl (.inr rfl) rfl ?_)
      exact last_duties ⟨rfl,rfl,fun _ => rfl⟩ fun _ => rfl
  cases hrx : status.receiveOk || status.rxOverflow with
  | false =>
    simp only [Bool.false_eq_true, if_false]
    exact htx
  | true =>
    simp only [if_true]
    exact Follows.bind (processRxBuffer_duties rfl htx)

theorem body_duties : duties.Sound Proc.body := by
  intro p g hp
  cases p with
  | flushLoop => exact flushRound_duties hp
  | rxLoop => exact rxRound_duties
  | handler =>
    obtain rfl : g = .rest true := hp
    refine perform_duties rfl fun _ => Follows.bind (trigger_duties.mono ?_)
    intro g' _ hg'
    rw [hg']
    exact perform_duties rfl fun _ => ⟨rfl,fun _ hf => hf.elim⟩
  | thread =>
    obtain rfl : g = .rest false := hp
    refine perform_duties rfl fun act => ?_
    cases act with
    | transmit data =>
      refine Follows.bind ((transmit_duties data).mono ?_)
      intro g' _ hg'
      rw [hg']
      exact ⟨rfl,fun _ hf => hf.elim⟩
    | receivePacket =>
      refine Follows.bind ((receivePacket_duties (g := .rest false) rfl).mono ?_)
      intro g' _ hg'
      rw [hg']
      exact ⟨rfl,fun _ hf => hf.elim⟩

end


/-! ### What is kept -/

/-- What matters of the state, with what the observer knows. -/
structure Sight where
  locked : Bool
  handling : Bool
  size : Nat
  owned : Bool
  tok : Bool
  looking : Ctx → Bool
  busy : Bool
  hold : Option Found

def sight (s : Shared) (w : Watch) : Sight where
  locked := s.txLocked
  handling := s.handling
  size := s.tx.txQueue.size
  owned := s.driverOwns s.tx.currentTxDescriptor
  tok := s.isr.transmitOk
  looking := s.history.looking
  busy := w.busy
  hold := w.hold

namespace Sight
variable (x : Sight)

/-- No frame waits, the card has the descriptor, or it will interrupt. -/
def Served : Prop := x.size = 0 ∨ x.owned = false ∨ x.tok = true

/-- Otherwise a thread is on its way to look. -/
def Attended : Prop := x.Served ∨ ∃ c, x.looking c = true

/-- What is known from the holder's look. -/
def Told : Found → Prop
  | .dropping | .looking => True
  | .empty => x.size = 0
  | .busy => x.owned = false
  | .missed => x.Served

theorem Told.served {x : Sight} {f : Found} (h : x.Told f) (hf : f.hold = .looked) : x.Served := by
  cases f with
  | dropping | looking => cases hf
  | empty => exact .inl h
  | busy => exact .inr (.inl h)
  | missed => exact h

/-- The observer knows how far the holder has come. -/
def Held (g : Hold) : Prop := ∃ f, x.hold = some f ∧ f.hold = g ∧ x.Told f

/-- The handler may acknowledge: no frame waits, the descriptor that it relies on is still busy, or the holder of the
lock has still to look. -/
def Settled (g : Duty) : Prop :=
  x.size = 0 ∨ x.busy = true ∧ x.owned = false ∨ x.hold = some .looking ∧ g.hold = none

/-- A context does what its duty says. -/
structure Fits (c : Ctx) (g : Duty) : Prop where
  looking : x.looking c = g.looking
  handler : g.handler = true ↔ c = .handler
  idle : g.handler = true → g.looking = false
  running : g.running = true → g.handler = true ∧ x.handling = true
  tok : g.tok = true → g.running = true ∧ x.tok = true
  settled : g.settled = true → g.tok = true ∧ x.Settled g
  eager : g.hold = some .looking → g.looking = true ∨ g.tok = true

/-- A context that does not run the handler is left alone. -/
theorem Fits.frame {x x' : Sight} {c : Ctx} {g : Duty} (h : x.Fits c g) (hr : g.running = false)
    (hl : x'.looking c = x.looking c) : x'.Fits c g := by
  have htok : g.tok ≠ true := by
    intro ht
    cases hr.symm.trans (h.tok ht).1
  refine ⟨hl.trans h.looking,h.handler,h.idle,?_,fun ht => absurd ht htok,?_,h.eager⟩
  · intro ht
    cases hr.symm.trans ht
  · exact fun hs => absurd (h.settled hs).1 htok

end Sight

structure Watched (x : Sight) (v : Ctx → Duty) : Prop where
  fits : ∀ c, x.Fits c (v c)
  tx : Guarded x.locked (x.locked = false ∧ x.hold = none) x.Held fun c => (v c).hold
  attended : x.Attended

/-- No flush gives up at a lock whose holder drops an oversized frame, and the handler does not give up at one whose
holder has found a busy descriptor that has completed since. -/
def FlushesFind : Ctx → Act → Shared × Watch → Op → Prop
  | c, _, s, .tryLock .tx => s.1.txLocked = true →
    s.2.hold ≠ some .dropping ∧ (c = .handler → s.2.hold ≠ some .missed)
  | _, _, _, _ => True

/-- The descriptor that the handler relies on does not complete before the acknowledgement. -/
def CompletesElsewhere : Event → Shared × Watch → Prop
  | .complete desc, s => s.2.busy = true → desc ≠ s.1.tx.currentTxDescriptor
  | _, _ => True

namespace Watched
variable {x x' : Sight} {v : Ctx → Duty} {c : Ctx}

/-- Nobody else runs the handler while a context performs an operation. -/
private theorem others (h : Watched x v) (hc : x.handling = true → c = .handler) {c' : Ctx} (hne : c' ≠ c) :
    (v c').running = false := by
  by_contra hr
  obtain ⟨hh,hrun⟩ := (h.fits c').running (Bool.eq_true_of_not_eq_false hr)
  exact hne ((((h.fits c').handler).mp hh).trans (hc hrun).symm)

/-- A step of a context, whose part of the state follows its duty. -/
private theorem step (h : Watched x v) (hc : x.handling = true → c = .handler) {w : Duty}
    (hl : ∀ c', c' ≠ c → x'.looking c' = x.looking c') (hfit : x'.Fits c w)
    (htx : Guarded x'.locked (x'.locked = false ∧ x'.hold = none) x'.Held
      (Function.update (fun c => (v c).hold) c w.hold))
    (ha : x'.Attended) : Watched x' (Function.update v c w) := by
  refine ⟨?_,?_,ha⟩
  · intro c'
    by_cases hne : c' = c
    · rw [hne,Function.update_self]
      exact hfit
    · rw [Function.update_of_ne hne]
      exact (h.fits c').frame (h.others hc hne) (hl c' hne)
  · have hupdate : (fun c' => (Function.update v c w c').hold) = Function.update (fun c => (v c).hold) c w.hold :=
      Function.comp_update Duty.hold v c w
    rw [hupdate]
    exact htx

/-- The lock stays with whoever has it. -/
private theorem keep (h : Watched x v) {w : Duty} (hw : w.hold = (v c).hold) (hlock : x'.locked = x.locked)
    (hhold : x'.hold = x.hold) (htold : ∀ f, x.hold = some f → x.Told f → x'.Told f) :
    Guarded x'.locked (x'.locked = false ∧ x'.hold = none) x'.Held
      (Function.update (fun c => (v c).hold) c w.hold) := by
  rw [hw,Function.update_eq_self (f := fun c => (v c).hold),hlock,hhold]
  refine h.tx.mono ?_ fun hr => hr
  rintro g ⟨f,hf,hg,ht⟩
  exact ⟨f,hhold.trans hf,hg,htold f hf ht⟩

/-- Nobody's duty changes. -/
private theorem same (h : Watched x v) : Watched x (Function.update v c (v c)) := by
  rw [Function.update_eq_self]
  exact h

/-- Whoever holds the lock and has still to look is not the context that does not hold it. -/
private theorem looking_of_hold (h : Watched x v) (hhold : x.hold = some .looking) (hrun : ∀ c', c' ≠ c → (v c').tok = false)
    (hc : (v c).hold = none) : ∃ c', c' ≠ c ∧ x.looking c' = true := by
  have hsome : ¬ ∀ c', (v c').hold = none := by
    intro hnone
    have hrest := (h.tx.rest hnone).2
    rw [hhold] at hrest
    cases hrest
  obtain ⟨c',hc'⟩ := not_forall.mp hsome
  obtain ⟨g,hg⟩ := Option.ne_none_iff_exists'.mp hc'
  have hne : c' ≠ c := by
    intro he
    rw [he,hc] at hg
    cases hg
  obtain ⟨f,hf,hfg,-⟩ := h.tx.inside hg
  have hlook : f.hold = .looking := by
    rw [Option.some.inj (hf.symm.trans hhold)]
    rfl
  rw [← hfg,hlook] at hg
  refine ⟨c',hne,?_⟩
  rw [(h.fits c').looking]
  rcases (h.fits c').eager hg with hl | ht
  · exact hl
  · cases (hrun c' hne).symm.trans ht

/-- Nobody else has read the transmit bit while a context performs an operation. -/
private theorem others_tok (h : Watched x v) (hc : x.handling = true → c = .handler) (c' : Ctx) (hne : c' ≠ c) :
    (v c').tok = false := by
  by_contra ht
  cases (h.others hc hne).symm.trans ((h.fits c').tok (Bool.eq_true_of_not_eq_false ht)).1

private theorem transmit (h : Watched x v) (hc : x.handling = true → c = .handler) (ha : v c = .rest false) (b : Bool) :
    Watched { x with looking := Function.update x.looking c b }
      (Function.update v c { Duty.rest false with looking := b }) := by
  have hfit := h.fits c
  rw [ha] at hfit
  apply h.step hc
  · exact fun c' hne => Function.update_of_ne hne _ _
  · exact ⟨Function.update_self _ _ _,hfit.handler,nofun,nofun,nofun,nofun,nofun⟩
  · exact h.keep (by rw [ha]) rfl rfl fun f _ ht => by cases f <;> exact ht
  · rcases h.attended with hs | ⟨c',hl⟩
    · exact .inl hs
    · have hne : c' ≠ c := by
        intro he
        rw [he,hfit.looking] at hl
        cases hl
      exact .inr ⟨c',(Function.update_of_ne hne _ _).trans hl⟩

private theorem awaitInterrupt (h : Watched x v) (hc : x.handling = true → c = .handler) (ha : v c = .rest true) :
    Watched { x with handling := true } (Function.update v c { Duty.rest true with running := true }) := by
  have hfit := h.fits c
  rw [ha] at hfit
  apply h.step hc
  · exact fun _ _ => rfl
  · exact ⟨hfit.looking,hfit.handler,fun _ => rfl,fun _ => ⟨rfl,rfl⟩,nofun,nofun,nofun⟩
  · exact h.keep (by rw [ha]) rfl rfl fun f _ ht => by cases f <;> exact ht
  · exact h.attended

private theorem iret (h : Watched x v) (hc : x.handling = true → c = .handler)
    (ha : v c = { Duty.rest true with running := true }) :
    Watched { x with handling := false } (Function.update v c (.rest true)) := by
  have hfit := h.fits c
  rw [ha] at hfit
  apply h.step hc
  · exact fun _ _ => rfl
  · exact ⟨hfit.looking,hfit.handler,fun _ => rfl,nofun,nofun,nofun,nofun⟩
  · exact h.keep (by rw [ha]) rfl rfl fun f _ ht => by cases f <;> exact ht
  · exact h.attended

private theorem readInterruptStatus (h : Watched x v) (hc : x.handling = true → c = .handler)
    (ha : v c = { Duty.rest true with running := true }) :
    Watched { x with busy := false }
      (Function.update v c { Duty.rest true with running := true, tok := x.tok }) := by
  have hfit := h.fits c
  rw [ha] at hfit
  apply h.step hc
  · exact fun _ _ => rfl
  · exact ⟨hfit.looking,hfit.handler,fun _ => rfl,hfit.running,fun ht => ⟨rfl,ht⟩,nofun,nofun⟩
  · exact h.keep (by rw [ha]) rfl rfl fun f _ ht => by cases f <;> exact ht
  · exact h.attended

/-- The bit is gone, but then the handler has settled what it stood for. -/
private theorem acknowledgeInterrupt (h : Watched x v) (hc : x.handling = true → c = .handler) {status : Bool}
    (hhold : (v c).hold = none) (hs : status = true → (v c).settled = true) :
    Watched { x with tok := x.tok && !status, busy := false }
      (Function.update v c { v c with tok := false, settled := false }) := by
  have hfit := h.fits c
  have hserved : ∀ {f}, x.hold = some f → f.hold = .looked → x.Told f →
      Sight.Served { x with tok := x.tok && !status, busy := false } := by
    intro f hf hlooked ht
    cases hstatus : status with
    | false =>
      rw [Bool.not_false,Bool.and_true]
      exact ht.served hlooked
    | true =>
      rcases (hfit.settled (hs hstatus)).2 with hsize | ⟨-,howned⟩ | ⟨hlook,-⟩
      · exact .inl hsize
      · exact .inr (.inl howned)
      · rw [Option.some.inj (hf.symm.trans hlook)] at hlooked
        cases hlooked
  apply h.step hc
  · exact fun _ _ => rfl
  · refine ⟨hfit.looking,hfit.handler,hfit.idle,hfit.running,nofun,nofun,?_⟩
    intro hg
    rw [hhold] at hg
    cases hg
  · refine h.keep rfl rfl rfl ?_
    intro f hf ht
    cases f with
    | dropping | looking => trivial
    | empty => exact ht
    | busy => exact ht
    | missed => exact hserved hf rfl ht
  · cases hstatus : status with
    | false =>
      rw [Bool.not_false,Bool.and_true]
      exact h.attended
    | true =>
      rcases (hfit.settled (hs hstatus)).2 with hsize | ⟨-,howned⟩ | ⟨hlook,-⟩
      · exact .inl (.inl hsize)
      · exact .inl (.inr (.inl howned))
      · obtain ⟨c',-,hl⟩ := h.looking_of_hold hlook (h.others_tok hc) hhold
        exact .inr ⟨c',hl⟩

/-- A context takes the lock. -/
private theorem acquire (h : Watched x v) (hc : x.handling = true → c = .handler) {f : Found}
    (hlocked : x.locked = false) (hset : (v c).settled = false)
    (hf : f = .dropping ∨ f = .looking ∧ ((v c).looking = true ∨ (v c).tok = true)) :
    Watched { x with locked := true, hold := some f }
      (Function.update v c { v c with hold := some f.hold }) := by
  have hfit := h.fits c
  have htold : Sight.Told { x with locked := true, hold := some f } f := by
    rcases hf with rfl | ⟨rfl,-⟩ <;> trivial
  apply h.step hc
  · exact fun _ _ => rfl
  · refine ⟨hfit.looking,hfit.handler,hfit.idle,hfit.running,hfit.tok,?_,?_⟩
    · intro hs
      cases hset.symm.trans hs
    · intro hg
      rcases hf with rfl | ⟨-,hdue⟩
      · cases hg
      · exact hdue
  · have hfree := h.tx
    rw [hlocked] at hfree
    exact hfree.acquire fun _ => ⟨f,rfl,rfl,htold⟩
  · exact h.attended

private theorem unlock (h : Watched x v) (hc : x.handling = true → c = .handler) (hhold : (v c).hold.isSome = true) :
    Watched { x with locked := false, hold := none } (Function.update v c { v c with hold := none }) := by
  have hfit := h.fits c
  obtain ⟨g,hg⟩ := Option.isSome_iff_exists.mp hhold
  apply h.step hc
  · exact fun _ _ => rfl
  · refine ⟨hfit.looking,hfit.handler,hfit.idle,hfit.running,hfit.tok,?_,nofun⟩
    intro hs
    refine ⟨(hfit.settled hs).1,?_⟩
    rcases (hfit.settled hs).2 with hsize | hbusy | ⟨-,hnone⟩
    · exact .inl hsize
    · exact .inr (.inl hbusy)
    · rw [hg] at hnone
      cases hnone
  · exact h.tx.release hg ⟨rfl,rfl⟩
  · exact h.attended

/-- A context in the loop has looked and found nothing that it could send. -/
private theorem found (h : Watched x v) (hc : x.handling = true → c = .handler) (hg : (v c).Flushing) {f : Found}
    {busy : Bool} (hf : f = .empty ∧ x.size = 0 ∨ f = .busy ∧ x.owned = false ∧ busy = (c == .handler)) :
    Watched { x with looking := Function.update x.looking c false, busy, hold := some f }
      (Function.update v c (v c).stop) := by
  have hfit := h.fits c
  have hlooked : f.hold = .looked := by
    rcases hf with ⟨rfl,-⟩ | ⟨rfl,-⟩ <;> rfl
  have htold : Sight.Told { x with looking := Function.update x.looking c false, busy, hold := some f } f := by
    rcases hf with ⟨rfl,hsize⟩ | ⟨rfl,howned,-⟩
    · exact hsize
    · exact howned
  have hhold : (v c).stop.hold = some .looked := by
    rw [Duty.stop,hg.hold]
    rfl
  apply h.step hc
  · exact fun c' hne => Function.update_of_ne hne _ _
  · refine ⟨Function.update_self _ _ _,hfit.handler,fun _ => rfl,hfit.running,hfit.tok,?_,?_⟩
    · intro hs
      refine ⟨hs,?_⟩
      rcases hf with ⟨-,hsize⟩ | ⟨-,howned,hbusy⟩
      · exact .inl hsize
      · have hself : c = .handler := hfit.handler.mp (hfit.running (hfit.tok hs).1).1
        refine .inr (.inl ⟨?_,howned⟩)
        rw [hbusy,hself]
        rfl
    · intro he
      rw [hhold] at he
      cases he
  · rw [hhold]
    exact h.tx.advance hg.hold ⟨f,rfl,hlooked,htold⟩
  · exact .inl (htold.served hlooked)

/-- In the loop somebody looks again, whatever happens to the queue and the descriptors. -/
private theorem flushing (h : Watched x v) (hc : x.handling = true → c = .handler) (hg : (v c).Flushing) (size : Nat)
    (owned : Bool) : Watched { x with size, owned } (Function.update v c (v c)) := by
  have hfit := h.fits c
  apply h.step hc
  · exact fun _ _ => rfl
  · refine ⟨hfit.looking,hfit.handler,hfit.idle,hfit.running,hfit.tok,?_,hfit.eager⟩
    intro hs
    cases hg.settled.symm.trans hs
  · rw [hg.hold]
    obtain ⟨f,hf,hlook,-⟩ := h.tx.inside hg.hold
    refine h.tx.advance hg.hold ⟨f,hf,hlook,?_⟩
    cases f with
    | dropping | looking => trivial
    | _ => cases hlook
  · rcases hg.due with hl | ht
    · exact .inr ⟨c,hfit.looking.trans hl⟩
    · exact .inl (.inr (.inr (hfit.tok ht).2))

/-- Whoever is turned away stops looking, and leaves it to the holder or to the interrupt. -/
private theorem turned_away (h : Watched x v) (hc : x.handling = true → c = .handler) (hlocked : x.locked = true)
    (hhold : (v c).hold = none)
    (hfind : x.hold ≠ some .dropping ∧ (c = .handler → x.hold ≠ some .missed)) :
    Watched { x with looking := Function.update x.looking c false, busy := c == .handler && x.hold == some .busy }
      (Function.update v c (v c).stop) := by
  have hfit := h.fits c
  have hstop : (v c).stop.hold = none := by
    rw [Duty.stop,hhold]
    rfl
  have hsome : ¬ ∀ c', (v c').hold = none := by
    intro hnone
    cases hlocked.symm.trans (h.tx.rest hnone).1
  obtain ⟨c',hc'⟩ := not_forall.mp hsome
  obtain ⟨g,hg⟩ := Option.ne_none_iff_exists'.mp hc'
  obtain ⟨f,hf,hfg,htold⟩ := h.tx.inside hg
  apply h.step hc
  · exact fun c' hne => Function.update_of_ne hne _ _
  · refine ⟨Function.update_self _ _ _,hfit.handler,fun _ => rfl,hfit.running,hfit.tok,?_,?_⟩
    · intro hs
      refine ⟨hs,?_⟩
      have hself : c = .handler := hfit.handler.mp (hfit.running (hfit.tok hs).1).1
      cases f with
      | dropping => exact absurd hf hfind.1
      | missed => exact absurd hf (hfind.2 hself)
      | looking => exact .inr (.inr ⟨hf,hstop⟩)
      | empty => exact .inl htold
      | busy =>
        refine .inr (.inl ⟨?_,htold⟩)
        change (c == .handler && x.hold == some .busy) = true
        rw [hself,hf]
        rfl
    · intro he
      rw [hstop] at he
      cases he
  · exact h.keep (hstop.trans hhold.symm) rfl rfl fun f _ ht => by cases f <;> exact ht
  · by_cases hlook : x.hold = some .looking
    · obtain ⟨c',hne,hl⟩ := h.looking_of_hold hlook (h.others_tok hc) hhold
      exact .inr ⟨c',(Function.update_of_ne hne _ _).trans hl⟩
    · have hlooked : f.hold = .looked := by
        cases f with
        | dropping => exact absurd hf hfind.1
        | looking => exact absurd hf hlook
        | _ => rfl
      exact .inl (htold.served hlooked)

/-- A completion is announced, and the observer sees it if the holder has found the descriptor busy. -/
private theorem complete (h : Watched x v) {current : Bool} (hb : x.busy = true → current = false) :
    Watched { x with
      owned := current || x.owned
      tok := true
      hold := if x.hold = some .busy ∧ current = true then some .missed else x.hold } v := by
  have hserved : Sight.Served { x with
      owned := current || x.owned
      tok := true
      hold := if x.hold = some .busy ∧ current = true then some .missed else x.hold } := .inr (.inr rfl)
  refine ⟨?_,?_,.inl hserved⟩
  · intro c
    have hfit := h.fits c
    refine ⟨hfit.looking,hfit.handler,hfit.idle,hfit.running,fun ht => ⟨(hfit.tok ht).1,rfl⟩,?_,hfit.eager⟩
    intro hs
    refine ⟨(hfit.settled hs).1,?_⟩
    rcases (hfit.settled hs).2 with hsize | ⟨hbusy,howned⟩ | ⟨hlook,hnone⟩
    · exact .inl hsize
    · refine .inr (.inl ⟨hbusy,?_⟩)
      change (current || x.owned) = false
      rw [hb hbusy,howned]
      rfl
    · refine .inr (.inr ⟨?_,hnone⟩)
      change (if x.hold = some .busy ∧ current = true then some .missed else x.hold) = some .looking
      rw [if_neg (by rw [hlook]; rintro ⟨hne,-⟩; cases hne)]
      exact hlook
  · refine h.tx.mono ?_ ?_
    · rintro g ⟨f,hf,hg,ht⟩
      by_cases hmiss : x.hold = some .busy ∧ current = true
      · refine ⟨.missed,if_pos hmiss,?_,hserved⟩
        rw [← hg,Option.some.inj (hf.symm.trans hmiss.1)]
        rfl
      · refine ⟨f,(if_neg hmiss).trans hf,hg,?_⟩
        cases f with
        | dropping | looking => trivial
        | empty => exact ht
        | busy =>
          have hcurrent : current = false := Bool.eq_false_of_not_eq_true fun he => hmiss ⟨hf,he⟩
          change (current || x.owned) = false
          rw [hcurrent]
          exact ht
        | missed => exact hserved
    · rintro ⟨hlocked,hnone⟩
      refine ⟨hlocked,?_⟩
      change (if x.hold = some .busy ∧ current = true then some .missed else x.hold) = none
      rw [if_neg (by rw [hnone]; rintro ⟨hne,-⟩; cases hne)]
      exact hnone

variable {s s' : Shared} {w : Watch}

private theorem txPop (h : Watched (sight s w) v) (hc : s.handling = true → c = .handler) (hg : (v c).Flushing)
    {choice : Act} {r : Option (Option EthernetFrame)} (hr : s.run c choice .txPop = some (r,s')) :
    Watched (sight s' (watch c s .txPop r w)) (Function.update v c ((v c).after .txPop r)) := by
  simp only [Shared.run] at hr
  split at hr
  · cases hr
    exact h.same
  · rename_i q hp
    cases hr
    obtain ⟨rfl,hs⟩ := PacketQueue.eq_of_pop hp
    exact h.found hc hg (f := .empty) (.inl ⟨rfl,hs⟩)
  · rename_i frame q hp
    cases hr
    exact h.flushing hc hg _ _

/-- What a context does keeps the waiting frames attended. -/
theorem op (h : Watched (sight s w) v) (hc : s.handling = true → c = .handler) {choice : Act} {i : Op} {r : i.Result}
    (ha : (v c).Allowed i) (hf : FlushesFind c choice (s,w) i) (hr : s.run c choice i = some (r,s')) :
    Watched (sight s' (watch c s i r w)) (Function.update v c ((v c).after i r)) := by
  cases i with
  | act =>
    cases choice with
    | transmit data =>
      cases hr
      have htransmit := h.transmit hc ha (data.length ≤ 1792)
      rw [← ha] at htransmit
      exact htransmit
    | receivePacket =>
      cases hr
      exact h.same
  | awaitInterrupt =>
    simp only [Shared.run] at hr
    split at hr
    · cases hr
      have hawait := h.awaitInterrupt hc ha
      rw [← ha] at hawait
      exact hawait
    · cases hr
  | iret =>
    cases hr
    have hiret := h.iret hc ha
    have hrest : (v c).after .iret () = .rest true := by
      rw [ha]
      rfl
    rw [hrest]
    exact hiret
  | readInterruptStatus =>
    cases hr
    have hread : (v c).after .readInterruptStatus s.isr =
        { Duty.rest true with running := true, tok := s.isr.transmitOk } := by
      rw [ha]
      rfl
    rw [hread]
    exact h.readInterruptStatus hc ha
  | acknowledgeInterrupt status =>
    cases hr
    exact h.acknowledgeInterrupt hc ha.2.1 ha.2.2
  | lock l =>
    simp only [Shared.run] at hr
    split at hr
    · cases hr
    · rename_i hfree
      cases hr
      cases l with
      | rx => exact h.same
      | tx =>
        have hset : (v c).settled = false := by
          by_contra hs
          have htok := ((h.fits c).settled (Bool.eq_true_of_not_eq_false hs)).1
          cases ha.1.symm.trans ((h.fits c).running ((h.fits c).tok htok).1).1
        have hlocked : s.txLocked = false := Bool.eq_false_of_not_eq_true hfree
        have hlook : s.history.looking c = (v c).looking := (h.fits c).looking
        cases hl : (v c).looking with
        | true =>
          have hwatch : watch c s (.lock .tx) () w = { w with hold := some .looking } := by
            rw [watch,if_pos (hlook.trans hl)]
          have hafter : (v c).after (.lock .tx) () = { v c with hold := some .looking } := by
            rw [Duty.after,if_pos hl]
          rw [hwatch,hafter]
          exact h.acquire hc (f := .looking) hlocked hset (.inr ⟨rfl,.inl hl⟩)
        | false =>
          have hwatch : watch c s (.lock .tx) () w = { w with hold := some .dropping } := by
            rw [watch,if_neg (by rw [hlook,hl]; exact Bool.false_ne_true)]
          have hafter : (v c).after (.lock .tx) () = { v c with hold := some .dropping } := by
            rw [Duty.after,if_neg (by rw [hl]; exact Bool.false_ne_true)]
          rw [hwatch,hafter]
          exact h.acquire hc (f := .dropping) hlocked hset (.inl rfl)
  | tryLock l =>
    cases l with
    | rx =>
      cases hr
      exact h.same
    | tx =>
      simp only [Shared.run] at hr
      split at hr
      · rename_i hl
        cases hr
        exact h.turned_away hc hl ha.1 (hf hl)
      · rename_i hl
        cases hr
        exact h.acquire hc (f := .looking) (Bool.eq_false_of_not_eq_true hl) ha.2.2 (.inr ⟨rfl,ha.2.1⟩)
  | unlock l =>
    cases hr
    cases l with
    | rx => exact h.same
    | tx => exact h.unlock hc ha
  | txPush data =>
    simp only [Shared.run] at hr
    split at hr
    · cases hr
      exact h.same
    · cases hr
      exact h.flushing hc ha _ _
  | txSize =>
    cases hr
    by_cases hs : s.tx.txQueue.size = 0
    · have hstop : (v c).after .txSize s.tx.txQueue.size = (v c).stop := if_pos hs
      have hwatch : watch c s .txSize s.tx.txQueue.size w = { w with hold := some .empty } := if_pos hs
      rw [if_pos hs,hstop,hwatch]
      exact h.found hc ha (f := .empty) (.inl ⟨rfl,hs⟩)
    · have hstay : (v c).after .txSize s.tx.txQueue.size = v c := if_neg hs
      have hwatch : watch c s .txSize s.tx.txQueue.size w = w := if_neg hs
      rw [if_neg hs,hstay,hwatch]
      exact h.same
  | txDescriptorFree =>
    cases hr
    cases ho : s.driverOwns s.tx.currentTxDescriptor with
    | true => exact h.same
    | false => exact h.found hc ha (f := .busy) (.inr ⟨rfl,ho,rfl⟩)
  | txPop => exact h.txPop hc ha hr
  | copyFrame desc frame =>
    simp only [Shared.run] at hr
    split at hr
    · cases hr
      exact h.same
    · split at hr
      · cases hr
        exact h.same
      · cases hr
        exact h.same
  | writeTsd desc length =>
    cases hr
    exact h.flushing hc ha _ _
  | nextTxDescriptor =>
    cases hr
    exact h.flushing hc ha _ _
  | rxPush dataStart dataEnd =>
    simp only [Shared.run] at hr
    split at hr
    · cases hr
      exact h.same
    · split at hr
      · cases hr
        exact h.same
      · cases hr
        exact h.same
  | rxPop =>
    simp only [Shared.run] at hr
    split at hr
    · cases hr
      exact h.same
    · cases hr
      exact h.same
  | panic => exact r.elim
  | _ =>
    cases hr
    exact h.same

/-- The card gives a descriptor back. -/
private theorem driverOwns_complete (desc current : Nat) :
    Shared.driverOwns { s with
      tsd := Function.update s.tsd desc (s.tsd desc ||| 1#32 <<< 13)
      isr := { s.isr with transmitOk := true } } current = ((desc == current) || s.driverOwns current) := by
  change (Function.update s.tsd desc _ current).getLsbD 13 = _
  by_cases hd : desc = current
  · rw [hd,Function.update_self,BitVec.getLsbD_or,beq_self_eq_true,Bool.true_or]
    exact Bool.or_eq_true_iff.mpr (.inr rfl)
  · rw [Function.update_of_ne (Ne.symm hd),beq_eq_false_iff_ne.mpr hd,Bool.false_or]
    rfl

/-- What the card does by itself it announces. -/
theorem event (h : Watched (sight s w) v) {e : Event} (hm : CompletesElsewhere e (s,w)) (he : s.event e = some s') :
    Watched (sight s' (watchEnv e s w)) v := by
  cases e <;> simp only [Shared.event] at he
  case complete desc =>
    split at he
    · cases he
      have hsight : sight { s with
            tsd := Function.update s.tsd desc (s.tsd desc ||| 1#32 <<< 13)
            isr := { s.isr with transmitOk := true } } (watchEnv (.complete desc) s w) =
          { sight s w with
            owned := (desc == s.tx.currentTxDescriptor) || s.driverOwns s.tx.currentTxDescriptor
            tok := true
            hold := if w.hold = some .busy ∧ (desc == s.tx.currentTxDescriptor) = true then some .missed
              else w.hold } := by
        rw [← driverOwns_complete]
        simp only [watchEnv, beq_iff_eq]
        split <;> rfl
      rw [hsight]
      exact h.complete fun hb => beq_eq_false_iff_ne.mpr (hm hb)
    · cases he
  case write =>
    split at he
    · cases he
    · split at he
      · split at he
        · cases he
        · cases he
          exact h
      · cases he
        exact h
  all_goals
    split at he <;> cases he
    exact h

end Watched

/-- A thread performs nothing while the handler runs. -/
theorem perform_of_observed {c : Ctx} {choice : Act} {s s' : Shared × Watch} {i : Op} {r : i.Result}
    (hp : observed.perform c choice s i = some (r,s')) :
    (s.1.handling = true → c = .handler) ∧ s.1.run c choice i = some (r,s'.1) ∧ s'.2 = watch c s.1 i r s.2 := by
  obtain ⟨⟨r',shared⟩,hrun,he⟩ := Option.map_eq_some_iff.mp hp
  cases he
  change (if s.1.handling && c != .handler then none else s.1.run c choice i) = _ at hrun
  split at hrun
  · cases hrun
  · rename_i hfree
    refine ⟨?_,hrun,rfl⟩
    intro hh
    rw [hh,Bool.true_and,bne_iff_ne,not_not] at hfree
    exact hfree

theorem event_of_observed {e : Event} {s s' : Shared × Watch} (he : observed.env e s = some s') :
    s.1.event e = some s'.1 ∧ s'.2 = watchEnv e s.1 s.2 := by
  obtain ⟨shared,hrun,he⟩ := Option.map_eq_some_iff.mp he
  cases he
  exact ⟨hrun,rfl⟩

theorem watched_upholds :
    observed.Upholds duties FlushesFind CompletesElsewhere fun s v => Watched (sight s.1 s.2) v where
  sound := body_duties
  op := by
    intro c choice s i r s' v hI ha hc hp
    obtain ⟨hself,hrun,hwatch⟩ := perform_of_observed hp
    refine ⟨_,rfl,?_⟩
    rw [hwatch]
    exact hI.op hself ha hc hrun
  env := by
    intro e s s' v hI hm he
    obtain ⟨hevent,hwatch⟩ := event_of_observed he
    rw [hwatch]
    exact hI.event hm hevent

theorem start_watched (memory : Bytes) :
    Conc.Keeping duties (fun s v => Watched (sight s.1 s.2) v) (startObserved memory) fun c => .rest (c == .handler) := by
  refine ⟨⟨?_,⟨nofun,nofun,nofun,fun _ => ⟨rfl,rfl⟩⟩,.inl (.inl rfl)⟩,?_⟩
  · exact fun c => ⟨rfl,beq_iff_eq,fun _ => rfl,nofun,nofun,nofun,nofun⟩
  · intro c
    cases c with
    | handler => exact ⟨rfl,fun _ hf => hf.elim⟩
    | thread n => exact ⟨rfl,fun _ hf => hf.elim⟩

/-- The thread is neither in `transmit` nor in `flush_tx_queue`. -/
def AwayFromTx (s : State) (c : Ctx) : Prop :=
  (∃ k, s.code c = .call .thread k) ∨ Conc.Next s c .act ∨ Conc.Next s c (.lock .rx) ∨ Conc.Next s c .rxPop ∨
    Conc.Next s c (.unlock .rx)

/-- Nobody sends, the handler does not run, and it will not until the card does something. -/
structure Quiet (s : State) : Prop where
  threads : ∀ n, AwayFromTx s (.thread n)
  handling : s.shared.handling = false
  pending : s.shared.isr.pending = false

/-- A thread away from `transmit` does not look. -/
private theorem not_looking {s : State} {c : Ctx} {g : Duty} (hf : duties.Follows (fun _ _ => False) g (s.code c))
    (ha : AwayFromTx s c) : g.looking = false := by
  have hop : ∀ {i}, Conc.Next s c i → g.Allowed i := by
    intro i hn
    obtain ⟨k,hk⟩ := hn
    rw [hk] at hf
    exact hf.1
  rcases ha with ⟨k,hk⟩ | hn | hn | hn | hn
  · rw [hk] at hf
    have hrest : g = .rest false := hf.1
    rw [hrest]
    rfl
  · have hrest : g = .rest false := hop hn
    rw [hrest]
    rfl
  · exact hop hn
  · exact hop hn
  · exact hop hn

/-- If no flush gives up at a lock whose holder drops a frame or has missed a completion, and the descriptor that the
handler relies on does not complete before the acknowledgement, then no frame waits for a card that is idle. -/
theorem queued_frames_sent {s : Observed}
    (hr : (observedSystem.restrict (Conc.Meets FlushesFind CompletesElsewhere)).Reachable s)
    (hq : Quiet (Conc.unobserved s)) :
    s.shared.1.tx.txQueue.size = 0 ∨ s.shared.1.driverOwns s.shared.1.tx.currentTxDescriptor = false := by
  obtain ⟨v,hI,hf⟩ := watched_upholds.reachable (by rintro _ ⟨memory,rfl⟩; exact ⟨_,start_watched memory⟩) hr
  rcases hI.attended with (hs | ho | ht) | ⟨c,hc⟩
  · exact .inl hs
  · exact .inr ho
  · have hp := hq.pending
    change (s.shared.1.isr.receiveOk || s.shared.1.isr.transmitOk || s.shared.1.isr.rxOverflow) = false at hp
    have ht : s.shared.1.isr.transmitOk = true := ht
    rw [ht,Bool.or_true] at hp
    cases hp
  · exfalso
    rw [(hI.fits c).looking] at hc
    cases c with
    | handler =>
      rw [(hI.fits _).idle ((hI.fits _).handler.mpr rfl)] at hc
      cases hc
    | thread n =>
      rw [not_looking (s := Conc.unobserved s) (hf _) (hq.threads n)] at hc
      cases hc

section Runs

/-- The thread is between two calls. -/
private def away (s : State) (c : Ctx) : Bool :=
  match s.code c with
  | .call .thread _ => true
  | _ => false

private theorem away_iff {s : State} {c : Ctx} (h : away s c = true) : AwayFromTx s c := by
  rw [away] at h
  split at h
  · rename_i k hk
    exact .inl ⟨k,hk⟩
  · cases h

/-- Only the first thread and the handler are somewhere else. -/
private theorem quiet_of_code {s : State} (hn : ∀ n, s.code (.thread (n + 1)) = call .thread)
    (h0 : away s (.thread 0) = true) (hh : s.shared.handling = false) (hp : s.shared.isr.pending = false) : Quiet s := by
  refine ⟨?_,hh,hp⟩
  intro n
  cases n with
  | zero => exact away_iff h0
  | succ n => exact .inl ⟨_,hn n⟩

/-- Four frames are sent and `n` wait. -/
private def filled (n : Nat) : List (Move Ctx Act Event) := moves (.thread 0) (.transmit [1]) (4 * 18 + n * 10)

/-- The handler sends one frame and finds the next descriptor busy. Then all frames are out, and it acknowledges. -/
private def lateCompletion : List (Move Ctx Act Event) :=
  filled 2 ++ .env (.complete 0) :: moves .handler .receivePacket 16 ++
    [.env (.complete 1),.env (.complete 2),.env (.complete 3),.env (.complete 0)] ++ moves .handler .receivePacket 3

private theorem lateCompletion_threads (n : Nat) (choice : Act) : .run (.thread (n + 1)) choice ∉ lateCompletion := by
  simp [lateCompletion, filled, moves]

/-- A frame waits, the card is idle, and nothing is going to happen. -/
theorem queued_frame_stuck :
    ∃ s : State, system.Reachable s ∧ Quiet s ∧ s.shared.tx.txQueue.size = 1 ∧
      s.shared.driverOwns s.shared.tx.currentTxDescriptor = true ∧ ∀ desc < 4, s.shared.driverOwns desc = true := by
  have hrun : (driver.execAll (fun _ _ => true) (start fun _ => 0) lateCompletion).any (fun s =>
      away s (.thread 0) && (!s.shared.handling && (!s.shared.isr.pending && (s.shared.tx.txQueue.size == 1 &&
        (s.shared.driverOwns s.shared.tx.currentTxDescriptor &&
          (List.range 4).all s.shared.driverOwns))))) = true := by decide +kernel
  obtain ⟨s,hs,hg⟩ := (Option.any_eq_true _ _).mp hrun
  simp only [Bool.and_eq_true, Bool.not_eq_true', beq_iff_eq, List.all_eq_true, List.mem_range] at hg
  obtain ⟨h0,hh,hp,hsize,hcur,hall⟩ := hg
  have hr := reachable_of_execAll hs
  exact ⟨s,hr.of_restrict,quiet_of_code (fun n => Conc.code_of_execAll hs (lateCompletion_threads n)) h0 hh hp,hsize,hcur,hall⟩

/-- The transmit lock is free when tried, and the handler does not rely on the descriptor that completes. -/
private def orderly (s : Observed) : Move Ctx Act Event → Bool
  | .run c _ =>
    match s.code c with
    | .op (.tryLock .tx) _ => !s.shared.1.txLocked
    | _ => true
  | .env (.complete desc) => !s.shared.2.busy || desc != s.shared.1.tx.currentTxDescriptor
  | .env _ => true

private theorem meets_of_orderly (s : Observed) (move : Move Ctx Act Event) (h : orderly s move = true) :
    Conc.Meets FlushesFind CompletesElsewhere s move := by
  cases move with
  | env e =>
    cases e with
    | complete desc =>
      intro hb
      have h : (!s.shared.2.busy || desc != s.shared.1.tx.currentTxDescriptor) = true := h
      rw [hb,Bool.not_true,Bool.false_or,bne_iff_ne] at h
      exact h
    | _ => trivial
  | run c choice =>
    intro i hn
    obtain ⟨k,hk⟩ := hn
    simp only [orderly, hk] at h
    cases i with
    | tryLock l =>
      cases l with
      | rx => trivial
      | tx =>
        intro hl
        have h : (!s.shared.1.txLocked) = true := h
        rw [hl] at h
        cases h
    | _ => trivial

/-- While the handler sends a frame, a descriptor completes on which it does not rely. The next completion is that of
the busy one. -/
private def completions : List (Move Ctx Act Event) :=
  filled 2 ++ .env (.complete 0) :: moves .handler .receivePacket 16 ++ .env (.complete 2) ::
    moves .handler .receivePacket 3 ++ .env (.complete 1) :: moves .handler .receivePacket 18

private theorem completions_threads (n : Nat) (choice : Act) : .run (.thread (n + 1)) choice ∉ completions := by
  simp [completions, filled, moves]

theorem queued_frames_sent_sample :
    ∃ s : Observed, (observedSystem.restrict (Conc.Meets FlushesFind CompletesElsewhere)).Reachable s ∧
      Quiet (Conc.unobserved s) ∧ s.shared.1.history.handed.length = 6 ∧
      (s.shared.1.tx.txQueue.size = 0 ∨ s.shared.1.driverOwns s.shared.1.tx.currentTxDescriptor = false) := by
  have hrun : (observed.execAll orderly (startObserved fun _ => 0) completions).any (fun s =>
      away (Conc.unobserved s) (.thread 0) && (!s.shared.1.handling && (!s.shared.1.isr.pending &&
        s.shared.1.history.handed.length == 6))) = true := by decide +kernel
  obtain ⟨s,hs,hg⟩ := (Option.any_eq_true _ _).mp hrun
  simp only [Bool.and_eq_true, Bool.not_eq_true', beq_iff_eq] at hg
  obtain ⟨h0,hh,hp,hlen⟩ := hg
  have hr := (observed_of_execAll hs).of_restrict_of meets_of_orderly
  have hq := quiet_of_code (s := Conc.unobserved s) (fun n => Conc.code_of_execAll hs (completions_threads n)) h0 hh hp
  exact ⟨s,hr,hq,hlen,queued_frames_sent hr hq⟩

end Runs

end HeineOS.Rtl8139
