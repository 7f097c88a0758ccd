import HeineOS.Device.Wakeups

/-! Wake-ups of the receive side: which packets the card has announced. The handler clears the status bit behind its
look at the buffer and gives up at a taken lock, so that it depends on what happens in between. -/
namespace HeineOS.Rtl8139
open Lib Protocol

/-- What the handler knows about the receive buffer: the status word has the receive bit, and the buffer was empty
after that. -/
structure Drain where
  handler : Bool
  rok : Bool
  drained : Bool

namespace Drain

/-- Between two calls, or two interrupts. -/
def rest (handler : Bool) : Drain := ⟨handler,false,false⟩

variable (g : Drain)

def after : (i : Op) → i.Result → Drain
  | .readInterruptStatus, status => { g with rok := status.receiveOk, drained := false }
  | .acknowledgeInterrupt _, _ => { g with rok := false, drained := false }
  | .rxBufferEmpty, empty => { g with drained := empty }
  | _, _ => g

/-- What the handler is told when it does not get the lock. -/
def Told : (i : Op) → i.Result → Prop
  | .tryLock .rx, false => g.rok = false
  | _, _ => True

def Allowed : Op → Prop
  | .readInterruptStatus | .rxBufferEmpty => g.handler = true
  | .acknowledgeInterrupt status => g.handler = true ∧ (status.receiveOk = true → g.rok = true ∧ g.drained = true)
  | _ => True

end Drain

def drains : Protocol Op.Result Proc Drain where
  allowed := Drain.Allowed
  next g i r g' := g' = g.after i r ∧ g.Told i r
  pre
    | .flushLoop, _ => True
    | .rxLoop, g => g.handler = true
    | .handler, g => g = .rest true
    | .thread, g => g = .rest false
  post
    | .flushLoop, g, g' => g' = g
    | .rxLoop, g, g' => g' = { g with drained := true }
    | .handler, _, _ | .thread, _, _ => False

section
variable {α : Type} {g : Drain}

private theorem perform_drains {Q : Drain → α → Prop} {i : Op} {f : i.Result → Code α} (ha : g.Allowed i)
    (hf : ∀ r, g.Told i r → drains.Follows Q (g.after i r) (f r)) : drains.Follows Q g (perform i >>= f) := by
  refine ⟨ha,?_⟩
  rintro r g' ⟨hn,ht⟩
  rw [hn]
  exact hf r ht

private theorem last_drains {i : Op} {Q : Drain → i.Result → Prop} (ha : g.Allowed i)
    (hf : ∀ r, Q (g.after i r) r) : drains.Follows Q g (perform i) := by
  refine ⟨ha,?_⟩
  rintro r g' ⟨hn,-⟩
  rw [hn]
  exact hf r

private theorem panic_drains {Q : Drain → Unit → Prop} : drains.Follows Q g panic :=
  ⟨trivial,fun r => r.elim⟩

private theorem check_drains {Q : Drain → α → Prop} {b : Bool} {f : Unit → Code α}
    (h : drains.Follows Q g (f ())) : drains.Follows Q g (check b >>= f) := by
  cases b with
  | false => exact ⟨trivial,fun r => r.elim⟩
  | true => exact h

private theorem flushTxQueue_drains {Q : Drain → Unit → Prop} (hQ : Q g ()) : drains.Follows Q g flushTxQueue := by
  refine perform_drains trivial fun taken _ => ?_
  cases taken with
  | false => exact hQ
  | true =>
    refine ⟨trivial,?_⟩
    intro g' hg'
    rw [hg']
    exact last_drains trivial fun _ => hQ

private theorem flushRound_drains : drains.Follows (fun g' _ => g' = g) g flushRound := by
  refine perform_drains trivial fun size _ => ?_
  split
  · refine perform_drains trivial fun free _ => ?_
    cases free with
    | false => rfl
    | true =>
      refine perform_drains trivial fun r _ => ?_
      match r with
      | none => exact panic_drains
      | some none => rfl
      | some (some frame) =>
        refine perform_drains trivial fun desc _ => ?_
        refine perform_drains trivial fun copied _ => ?_
        apply check_drains
        refine perform_drains trivial fun _ _ => ?_
        refine perform_drains trivial fun _ _ => ?_
        refine perform_drains trivial fun _ _ => ?_
        exact ⟨trivial,fun _ h => h⟩
  · rfl

private theorem transmit_drains (data : List UInt8) :
    drains.Follows (fun g' _ => g' = g) g (transmit data) := by
  refine perform_drains trivial fun _ _ => ?_
  split
  · exact last_drains trivial fun _ => rfl
  · refine perform_drains trivial fun _ _ => ?_
    apply check_drains
    refine perform_drains trivial fun _ _ => ?_
    exact flushTxQueue_drains rfl

/-- The loop ends with an empty buffer. -/
private theorem rxRound_drains (hg : g.handler = true) :
    drains.Follows (fun g' _ => g' = { g with drained := true }) g rxRound := by
  refine perform_drains hg fun empty _ => ?_
  cases empty with
  | true => rfl
  | false =>
    refine perform_drains trivial fun offset _ => ?_
    refine perform_drains trivial fun r _ => ?_
    cases r with
    | none => exact panic_drains
    | some header =>
      have hadvance : drains.Follows (fun g' _ => g' = { g with drained := true }) { g with drained := false } (do
          perform (.setRxReadOffset (nextOffset offset (header >>> 16).toNat))
          perform (.writeCapr (BitVec.ofNat 16 (nextOffset offset (header >>> 16).toNat) - 16))
          call .rxLoop) := by
        refine perform_drains trivial fun _ _ => ?_
        refine perform_drains trivial fun _ _ => ?_
        exact ⟨hg,fun _ h => h⟩
      dsimp only
      split
      · split
        · refine perform_drains trivial fun stored _ => ?_
          apply check_drains
          exact hadvance
        · exact hadvance
      · exact hadvance

private theorem receivePacket_drains : drains.Follows (fun g' _ => g' = g) g receivePacket := by
  refine perform_drains trivial fun _ _ => perform_drains trivial fun r _ => ?_
  cases r with
  | none => exact panic_drains
  | some frame => exact last_drains trivial fun _ => rfl

/-- With the receive bit, the handler has drained the buffer when it acknowledges. -/
private theorem trigger_drains : drains.Follows (fun g' _ => g' = .rest true) (.rest true) trigger := by
  refine perform_drains rfl fun status _ => ?_
  have hack : ∀ drained, (status.receiveOk = true → drained = true) →
      drains.Follows (fun g' _ => g' = .rest true) ⟨true,status.receiveOk,drained⟩ (do
        if status.transmitOk then flushTxQueue
        perform (.acknowledgeInterrupt status)) := by
    intro drained hd
    have hlast : drains.Follows (fun g' _ => g' = .rest true) ⟨true,status.receiveOk,drained⟩
        (perform (.acknowledgeInterrupt status)) :=
      last_drains ⟨rfl,fun hrok => ⟨hrok,hd hrok⟩⟩ fun _ => rfl
    cases status.transmitOk with
    | false => exact hlast
    | true => exact Follows.bind (flushTxQueue_drains hlast)
  cases hrx : status.receiveOk || status.rxOverflow with
  | false =>
    simp only [Bool.false_eq_true, if_false]
    refine hack false fun hrok => ?_
    rw [hrok] at hrx
    cases hrx
  | true =>
    simp only [if_true]
    apply Follows.bind
    refine perform_drains trivial fun taken htold => ?_
    cases taken with
    | false =>
      refine hack false fun hrok => ?_
      cases hrok.symm.trans htold
    | true =>
      refine ⟨rfl,?_⟩
      intro g' hg'
      rw [hg']
      exact last_drains trivial fun _ => hack true fun _ => rfl

theorem body_drains : drains.Sound Proc.body := by
  intro p g hp
  cases p with
  | flushLoop => exact flushRound_drains
  | rxLoop => exact rxRound_drains hp
  | handler =>
    obtain rfl : g = .rest true := hp
    refine perform_drains trivial fun _ _ => Follows.bind (trigger_drains.mono ?_)
    intro g' _ hg'
    rw [hg']
    exact perform_drains trivial fun _ _ => ⟨rfl,fun _ hf => hf.elim⟩
  | thread =>
    obtain rfl : g = .rest false := hp
    refine perform_drains trivial fun act _ => ?_
    cases act with
    | transmit data =>
      refine Follows.bind ((transmit_drains data).mono ?_)
      intro g' _ hg'
      rw [hg']
      exact ⟨rfl,fun _ hf => hf.elim⟩
    | receivePacket =>
      refine Follows.bind (receivePacket_drains.mono ?_)
      intro g' _ hg'
      rw [hg']
      exact ⟨rfl,fun _ hf => hf.elim⟩

end

/-- The handler tries the receive lock with the receive bit only while no reader holds it. -/
def DrainsAlone : Ctx → Act → Shared × Watch → Op → Prop
  | _, _, s, .tryLock .rx => s.2.status.receiveOk = true → s.1.rxLocked = false
  | _, _, _, _ => True

/-- No packet is completed after the handler has found the buffer empty and before it acknowledges the receive bit. -/
def ArrivesApart : Event → Shared × Watch → Prop
  | .write, s => s.2.status.receiveOk = true → s.2.drained = true →
    ∀ p n, s.1.ring.writing = some (p,n) → n < p.bytes.length
  | _, _ => True

/-- The card has told the driver about its packets, and the observer knows when the handler has found none. -/
structure Drained (s : Shared) (w : Watch) (v : Ctx → Drain) : Prop where
  handler : ∀ c, (v c).handler = true ↔ c = .handler
  rok : ∀ c, (v c).rok = true → (v c).handler = true ∧ w.status.receiveOk = true
  drained : ∀ c, (v c).drained = true → (v c).handler = true ∧ w.drained = true
  empty : w.status.receiveOk = true → w.drained = true → s.ring.bufferEmpty = true
  announced : s.ring.bufferEmpty = true ∨ s.isr.receiveOk = true

/-- Released packets stay released. -/
private theorem bufferEmpty_release {ring : RxRing} (h : ring.bufferEmpty = true) (pointer : Nat) :
    (ring.release pointer).bufferEmpty = true := by
  have hall : ring.released = ring.packets.length := eq_of_beq h
  have hlen : ring.packets.length - ring.released = 0 := by rw [hall,Nat.sub_self]
  apply beq_iff_eq.mpr
  change ring.released + _ = ring.packets.length
  rw [hlen]
  exact hall

namespace Drained
variable {s s' : Shared} {w w' : Watch} {v : Ctx → Drain} {c : Ctx}

/-- A step of the handler. -/
private theorem step (h : Drained s w v) (hc : (v c).handler = true) {g : Drain} (hg : g.handler = true)
    (hrok : g.rok = true → w'.status.receiveOk = true) (hd : g.drained = true → w'.drained = true)
    (he : w'.status.receiveOk = true → w'.drained = true → s'.ring.bufferEmpty = true)
    (ha : s'.ring.bufferEmpty = true ∨ s'.isr.receiveOk = true) : Drained s' w' (Function.update v c g) := by
  have hself : c = .handler := (h.handler c).mp hc
  have hother : ∀ c', c' ≠ c → (v c').handler ≠ true := by
    intro c' hne hh
    exact hne (((h.handler c').mp hh).trans hself.symm)
  refine ⟨?_,?_,?_,he,ha⟩
  · intro c'
    by_cases hne : c' = c
    · rw [hne,Function.update_self]
      exact ⟨fun _ => hself,fun _ => hg⟩
    · rw [Function.update_of_ne hne]
      exact h.handler c'
  · intro c'
    by_cases hne : c' = c
    · rw [hne,Function.update_self]
      exact fun ht => ⟨hg,hrok ht⟩
    · rw [Function.update_of_ne hne]
      exact fun ht => absurd (h.rok c' ht).1 (hother c' hne)
  · intro c'
    by_cases hne : c' = c
    · rw [hne,Function.update_self]
      exact fun ht => ⟨hg,hd ht⟩
    · rw [Function.update_of_ne hne]
      exact fun ht => absurd (h.drained c' ht).1 (hother c' hne)

/-- Nobody learns anything, and the ring and the status bits stay as they are. -/
private theorem same (h : Drained s w v) (hring : s'.ring = s.ring) (hisr : s'.isr = s.isr)
    (hs : w'.status = w.status) (hd : w'.drained = w.drained) : Drained s' w' (Function.update v c (v c)) := by
  rw [Function.update_eq_self]
  refine ⟨h.handler,?_,?_,?_,?_⟩
  · rw [hs]
    exact h.rok
  · rw [hd]
    exact h.drained
  · rw [hs,hd,hring]
    exact h.empty
  · rw [hring,hisr]
    exact h.announced

private theorem writeCapr (h : Drained s w v) (pointer : Nat) :
    Drained { s with ring := s.ring.release pointer } w (Function.update v c (v c)) := by
  rw [Function.update_eq_self]
  refine ⟨h.handler,h.rok,h.drained,fun hs hd => bufferEmpty_release (h.empty hs hd) pointer,?_⟩
  exact h.announced.imp (fun he => bufferEmpty_release he pointer) id

/-- What the bit stood for has been taken over. -/
private theorem acknowledgeInterrupt (h : Drained s w v) {status : InterruptReg}
    (ha : (v c).Allowed (.acknowledgeInterrupt status)) :
    Drained { s with isr := s.isr.clear status } (watch c s (.acknowledgeInterrupt status) () w)
      (Function.update v c ((v c).after (.acknowledgeInterrupt status) ())) := by
  refine h.step (g := (v c).after (.acknowledgeInterrupt status) ()) ha.1 ha.1 nofun nofun nofun ?_
  cases hstatus : status.receiveOk with
  | true =>
    obtain ⟨hrok,hd⟩ := ha.2 hstatus
    exact .inl (h.empty (h.rok c hrok).2 (h.drained c hd).2)
  | false =>
    refine h.announced.imp id fun hi => ?_
    change (s.isr.receiveOk && !status.receiveOk) = true
    rw [hi,hstatus]
    rfl

/-- What the handler has read, and whether the buffer was empty, changes with its own steps only. -/
private theorem watch_kept {i : Op} {r : i.Result} (hread : i ≠ .readInterruptStatus)
    (hack : ∀ status, i ≠ .acknowledgeInterrupt status) (hempty : i ≠ .rxBufferEmpty) :
    (watch c s i r w).status = w.status ∧ (watch c s i r w).drained = w.drained := by
  unfold watch
  split
  · exact absurd rfl hread
  · exact absurd rfl (hack _)
  · exact absurd rfl hempty
  all_goals
    try split
    all_goals exact ⟨rfl,rfl⟩

/-- What a context does keeps the packets announced. -/
theorem op (h : Drained s w v) {choice : Act} {i : Op} {r : i.Result} (ha : (v c).Allowed i)
    (hr : s.run c choice i = some (r,s')) :
    Drained s' (watch c s i r w) (Function.update v c ((v c).after i r)) := by
  have hframe := frame_of_run hr
  cases i with
  | readInterruptStatus =>
    cases hr
    exact h.step ha ha id nofun nofun h.announced
  | acknowledgeInterrupt status =>
    cases hr
    exact h.acknowledgeInterrupt ha
  | rxBufferEmpty =>
    cases hr
    exact h.step ha ha (fun ht => (h.rok c ht).2) id (fun _ hd => hd) h.announced
  | writeCapr capr =>
    cases hr
    exact h.writeCapr _
  | _ =>
    obtain ⟨hstatus,hdrained⟩ := watch_kept (c := c) (s := s) (r := r) (w := w) nofun (fun _ => nofun) nofun
    exact h.same (hframe.ring nofun) (hframe.isr nofun) hstatus hdrained

/-- Only the handler tries the receive lock, and it gets it if it has read the receive bit. -/
theorem told (h : Drained s w v) {choice : Act} {i : Op} {r : i.Result} (hf : DrainsAlone c choice (s,w) i)
    (hr : s.run c choice i = some (r,s')) : (v c).Told i r := by
  cases i with
  | tryLock l =>
    cases l with
    | tx => trivial
    | rx =>
      obtain rfl : (!s.rxLocked) = r := (Prod.mk.inj (Option.some.inj hr)).1
      cases hl : s.rxLocked with
      | false => trivial
      | true =>
        apply Bool.eq_false_of_not_eq_true
        intro hrok
        cases hl.symm.trans (hf (h.rok c hrok).2)
  | _ => trivial

/-- The card announces what it completes. -/
theorem event (h : Drained s w v) {e : Event} (hm : ArrivesApart e (s,w)) (he : s.event e = some s') :
    Drained s' (watchEnv e s w) v := by
  cases e <;> simp only [Shared.event] at he
  case complete desc =>
    have hw : (watchEnv (.complete desc) s w).status = w.status ∧ (watchEnv (.complete desc) s w).drained = w.drained := by
      rw [watchEnv]
      split <;> exact ⟨rfl,rfl⟩
    split at he
    · cases he
      refine ⟨h.handler,?_,?_,?_,h.announced⟩
      · rw [hw.1]
        exact h.rok
      · rw [hw.2]
        exact h.drained
      · rw [hw.1,hw.2]
        exact h.empty
    · cases he
  case write =>
    split at he
    · cases he
    · rename_i p n hwriting
      split at he
      · split at he
        · cases he
        · cases he
          exact ⟨h.handler,h.rok,h.drained,h.empty,h.announced⟩
      · rename_i hdone
        cases he
        refine ⟨h.handler,h.rok,h.drained,?_,.inr rfl⟩
        intro hs hd
        have hlt := hm hs hd p n hwriting
        rw [List.getElem?_eq_getElem hlt] at hdone
        cases hdone
  all_goals
    split at he <;> cases he
    exact ⟨h.handler,h.rok,h.drained,h.empty,h.announced⟩

end Drained

theorem drained_upholds :
    observed.Upholds drains DrainsAlone ArrivesApart fun s v => Drained s.1 s.2 v where
  sound := body_drains
  op := by
    intro c choice s i r s' v hI ha hc hp
    obtain ⟨-,hrun,hwatch⟩ := perform_of_observed hp
    refine ⟨_,⟨rfl,hI.told hc hrun⟩,?_⟩
    rw [hwatch]
    exact hI.op ha hrun
  env := by
    intro e s s' v hI hm he
    obtain ⟨hevent,hwatch⟩ := event_of_observed he
    rw [hwatch]
    exact hI.event hm hevent

theorem start_drained (memory : Bytes) :
    Conc.Keeping drains (fun s v => Drained s.1 s.2 v) (startObserved memory) fun c => .rest (c == .handler) := by
  refine ⟨⟨fun _ => beq_iff_eq,nofun,nofun,nofun,.inl rfl⟩,?_⟩
  intro c
  cases c with
  | handler => exact ⟨rfl,fun _ hf => hf.elim⟩
  | thread n => exact ⟨rfl,fun _ hf => hf.elim⟩

/-- Every packet that has arrived was taken over, and is delivered, queued or dropped. -/
structure AllTaken (s : Shared) : Prop where
  empty : s.ring.bufferEmpty = true
  taken : s.history.taken = s.ring.packets.map Packet.payload
  count : s.history.taken.length = s.history.delivered + s.rx.rxQueue.size + s.rx.rxQueue.droppedPackets

/-- With an empty buffer nobody is in the middle of a packet. -/
private theorem RxPart.At.wf_of_empty {t : RxPart} {g : RxStage} (h : t.At g)
    (he : t.ring.released = t.ring.packets.length) : t.Wf t.ring.packets.length := by
  rw [← he]
  cases g with
  | held => exact h.1
  | filled => exact Located.wf h
  | located offset => exact Located.wf h
  | read offset header => exact h.1.wf
  | stored offset header =>
    have hb := h.1.bound
    rw [he] at hb
    exact absurd hb (Nat.not_succ_le_self _)
  | advanced offset =>
    have hb := h.1.bound
    rw [he] at hb
    exact absurd hb (Nat.not_succ_le_self _)

/-- If no reader keeps the handler from the buffer, and no packet is completed between its look and the
acknowledgement, then no packet waits without an interrupt. -/
theorem arrived_packets_taken {s : Observed}
    (hr : (observedSystem.restrict (Conc.Meets DrainsAlone ArrivesApart)).Reachable s)
    (hp : s.shared.1.isr.receiveOk = false) : AllTaken s.shared.1 := by
  obtain ⟨d,hdrained,-⟩ := drained_upholds.reachable (by rintro _ ⟨memory,rfl⟩; exact ⟨_,start_drained memory⟩) hr
  obtain ⟨v,hI,-⟩ := inv_of_reachable (reachable_of_observed hr.of_restrict)
  have hI : Inv s.shared.1 v := hI
  rcases hdrained.announced with he | hrok
  · have hall : s.shared.1.ring.released = s.shared.1.ring.packets.length := eq_of_beq he
    have hwf : s.shared.1.rxPart.Wf s.shared.1.ring.packets.length :=
      hI.rx.data (fun _ hg => hg.wf_of_empty hall) fun hrest => hrest.wf_of_empty hall
    have htaken : s.shared.1.history.taken =
        (s.shared.1.ring.packets.take s.shared.1.ring.packets.length).map Packet.payload := hwf.taken
    rw [List.take_length] at htaken
    exact ⟨he,htaken,hwf.count⟩
  · cases hp.symm.trans hrok

/-- The receive lock is free when tried, and the card does nothing while the handler has found the buffer empty. -/
private def apart (s : Observed) : Move Ctx Act Event → Bool
  | .run c _ =>
    match s.code c with
    | .op (.tryLock .rx) _ => !s.shared.1.rxLocked
    | _ => true
  | .env .write => !s.shared.2.drained
  | .env _ => true

private theorem meets_of_apart (s : Observed) (move : Move Ctx Act Event) (h : apart s move = true) :
    Conc.Meets DrainsAlone ArrivesApart s move := by
  cases move with
  | env e =>
    cases e with
    | write =>
      intro _ hd
      have h : (!s.shared.2.drained) = true := h
      rw [hd] at h
      cases h
    | _ => trivial
  | run c choice =>
    intro i hn
    obtain ⟨k,hk⟩ := hn
    simp only [apart, hk] at h
    cases i with
    | tryLock l =>
      cases l with
      | tx => trivial
      | rx =>
        intro _
        have h : (!s.shared.1.rxLocked) = true := h
        rw [Bool.not_eq_true'] at h
        exact h
    | _ => trivial

/-- Two packets, one after the other, and a thread that takes the first one. -/
theorem arrived_packets_taken_sample :
    ∃ s : Observed, (observedSystem.restrict (Conc.Meets DrainsAlone ArrivesApart)).Reachable s ∧
      s.shared.1.isr.receiveOk = false ∧ s.shared.1.ring.packets.map Packet.payload = [[7,8,9],[7,8,9]] ∧
      s.shared.1.history.delivered = 1 ∧ AllTaken s.shared.1 := by
  have hrun : (observed.execAll apart (startObserved fun _ => 0)
      (arrival ping ++ moves .handler .receivePacket 17 ++ moves (.thread 0) .receivePacket 6 ++ arrival ping ++
        moves .handler .receivePacket 16)).any (fun s =>
      !s.shared.1.isr.receiveOk && (s.shared.1.ring.packets.map Packet.payload == [[7,8,9],[7,8,9]] &&
        s.shared.1.history.delivered == 1)) = true := by decide +kernel
  obtain ⟨s,hs,hg⟩ := (Option.any_eq_true _ _).mp hrun
  simp only [Bool.and_eq_true, Bool.not_eq_true', beq_iff_eq] at hg
  obtain ⟨hp,hpackets,hdelivered⟩ := hg
  have hr := (observed_of_execAll hs).of_restrict_of meets_of_apart
  exact ⟨s,hr,hp,hpackets,hdelivered,arrived_packets_taken hr hp⟩

/-- The handler has found the buffer empty, and a packet arrives before it acknowledges. -/
theorem arrived_packet_forgotten :
    ∃ s : State, system.Reachable s ∧ s.shared.handling = false ∧ s.shared.isr.pending = false ∧
      s.shared.ring.bufferEmpty = false := by
  have hrun : (driver.execAll (fun _ _ => true) (start fun _ => 0)
      (arrival ping ++ moves .handler .receivePacket 13 ++ arrival ping ++ moves .handler .receivePacket 3)).any (fun s =>
        !s.shared.handling && (!s.shared.isr.pending && !s.shared.ring.bufferEmpty)) = true := by decide +kernel
  obtain ⟨s,hs,hg⟩ := (Option.any_eq_true _ _).mp hrun
  simp only [Bool.and_eq_true, Bool.not_eq_true'] at hg
  obtain ⟨hh,hp,he⟩ := hg
  exact ⟨s,(reachable_of_execAll hs).of_restrict,hh,hp,he⟩

end HeineOS.Rtl8139
