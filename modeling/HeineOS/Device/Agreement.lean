import HeineOS.Device.Transmit
import HeineOS.Device.Receive

/-! The invariant of the driver and the card, for every interleaving, and what follows for the frames that are sent
and the packets that are received. -/
namespace HeineOS.Rtl8139
open Lib Protocol

/-- What an operation leaves alone: the buffers belong to the copy, the status bits to the acknowledgement and the
ring to the read pointer. -/
structure Frame (i : Op) (s s' : Shared) : Prop where
  buffers : (∀ desc frame, i ≠ .copyFrame desc frame) → s'.tx.txBuffers = s.tx.txBuffers
  isr : (∀ status, i ≠ .acknowledgeInterrupt status) → s'.isr = s.isr
  ring : (∀ capr, i ≠ .writeCapr capr) → s'.ring = s.ring

theorem frame_of_run {s s' : Shared} {c : Ctx} {choice : Act} {i : Op} {r : i.Result}
    (hr : s.run c choice i = some (r,s')) : Frame i s s' := by
  cases i with
  | act =>
    cases choice <;> cases hr
    all_goals exact ⟨fun _ => rfl,fun _ => rfl,fun _ => rfl⟩
  | awaitInterrupt =>
    simp only [Shared.run] at hr
    split at hr <;> cases hr
    exact ⟨fun _ => rfl,fun _ => rfl,fun _ => rfl⟩
  | acknowledgeInterrupt status =>
    cases hr
    exact ⟨fun _ => rfl,fun h => absurd rfl (h status),fun _ => rfl⟩
  | lock l =>
    simp only [Shared.run] at hr
    split at hr
    · cases hr
    · cases l <;> cases hr
      all_goals exact ⟨fun _ => rfl,fun _ => rfl,fun _ => rfl⟩
  | tryLock l =>
    cases l <;> simp only [Shared.run] at hr
    case rx =>
      cases hr
      exact ⟨fun _ => rfl,fun _ => rfl,fun _ => rfl⟩
    case tx =>
      split at hr <;> cases hr
      all_goals exact ⟨fun _ => rfl,fun _ => rfl,fun _ => rfl⟩
  | unlock l =>
    cases l <;> cases hr
    all_goals exact ⟨fun _ => rfl,fun _ => rfl,fun _ => rfl⟩
  | txPush data =>
    simp only [Shared.run] at hr
    split at hr <;> cases hr
    all_goals exact ⟨fun _ => rfl,fun _ => rfl,fun _ => rfl⟩
  | txSize =>
    cases hr
    split <;> exact ⟨fun _ => rfl,fun _ => rfl,fun _ => rfl⟩
  | txDescriptorFree =>
    cases hr
    split <;> exact ⟨fun _ => rfl,fun _ => rfl,fun _ => rfl⟩
  | txPop =>
    simp only [Shared.run] at hr
    split at hr <;> cases hr
    all_goals exact ⟨fun _ => rfl,fun _ => rfl,fun _ => rfl⟩
  | copyFrame desc frame =>
    simp only [Shared.run] at hr
    split at hr
    · cases hr
      exact ⟨fun _ => rfl,fun _ => rfl,fun _ => rfl⟩
    · split at hr <;> cases hr
      all_goals exact ⟨fun h => absurd rfl (h desc frame),fun _ => rfl,fun _ => rfl⟩
  | rxPush dataStart dataEnd =>
    simp only [Shared.run] at hr
    split at hr
    · cases hr
      exact ⟨fun _ => rfl,fun _ => rfl,fun _ => rfl⟩
    · split at hr <;> cases hr
      all_goals exact ⟨fun _ => rfl,fun _ => rfl,fun _ => rfl⟩
  | rxPop =>
    simp only [Shared.run] at hr
    split at hr <;> cases hr
    all_goals exact ⟨fun _ => rfl,fun _ => rfl,fun _ => rfl⟩
  | writeCapr capr =>
    cases hr
    exact ⟨fun _ => rfl,fun _ => rfl,fun h => absurd rfl (h capr)⟩
  | panic => exact r.elim
  | _ =>
    cases hr
    exact ⟨fun _ => rfl,fun _ => rfl,fun _ => rfl⟩

/-- Each lock guards its half, and whoever is inside finds it as its stage says. -/
structure Inv (s : Shared) (v : Ctx → Local) : Prop where
  tx : Guarded s.txLocked (s.txPart.At .held) s.txPart.At fun c => (v c).tx
  rx : Guarded s.rxLocked (s.rxPart.At .held) s.rxPart.At fun c => (v c).rx

namespace Inv
variable {s s' : Shared} {v : Ctx → Local} {c : Ctx}

private theorem tx_update (v : Ctx → Local) (c : Ctx) (w : Local) :
    (fun c' => (Function.update v c w c').tx) = Function.update (fun c => (v c).tx) c w.tx :=
  Function.comp_update Local.tx v c w

private theorem rx_update (v : Ctx → Local) (c : Ctx) (w : Local) :
    (fun c' => (Function.update v c w c').rx) = Function.update (fun c => (v c).rx) c w.rx :=
  Function.comp_update Local.rx v c w

/-- The two halves of the state, one after the other. -/
private theorem of_halves {w : Local}
    (htx : Guarded s'.txLocked (s'.txPart.At .held) s'.txPart.At (Function.update (fun c => (v c).tx) c w.tx))
    (hrx : Guarded s'.rxLocked (s'.rxPart.At .held) s'.rxPart.At (Function.update (fun c => (v c).rx) c w.rx)) :
    Inv s' (Function.update v c w) := by
  constructor
  case tx =>
    rw [tx_update]
    exact htx
  case rx =>
    rw [rx_update]
    exact hrx

private theorem tx_same (h : Inv s v) (hl : s'.txLocked = s.txLocked) (hp : s'.txPart = s.txPart) :
    Guarded s'.txLocked (s'.txPart.At .held) s'.txPart.At (Function.update (fun c => (v c).tx) c (v c).tx) := by
  rw [Function.update_eq_self,hl,hp]
  exact h.tx

private theorem rx_same (h : Inv s v) (hl : s'.rxLocked = s.rxLocked) (hp : s'.rxPart = s.rxPart) :
    Guarded s'.rxLocked (s'.rxPart.At .held) s'.rxPart.At (Function.update (fun c => (v c).rx) c (v c).rx) := by
  rw [Function.update_eq_self,hl,hp]
  exact h.rx

/-- What the locks guard stays as it is. -/
private theorem same (h : Inv s v) (htl : s'.txLocked = s.txLocked) (htp : s'.txPart = s.txPart)
    (hrl : s'.rxLocked = s.rxLocked) (hrp : s'.rxPart = s.rxPart) : Inv s' (Function.update v c (v c)) :=
  of_halves (h.tx_same htl htp) (h.rx_same hrl hrp)

/-- The holder of the transmit lock goes on. -/
private theorem tx_step (h : Inv s v) {g g' : TxStage} (hc : (v c).tx = some g) (hat : s'.txPart.At g')
    (htl : s'.txLocked = s.txLocked) (hrl : s'.rxLocked = s.rxLocked) (hrp : s'.rxPart = s.rxPart) :
    Inv s' (Function.update v c { v c with tx := some g' }) := by
  refine of_halves ?_ (h.rx_same hrl hrp)
  rw [htl]
  exact h.tx.advance hc hat

private theorem rx_step (h : Inv s v) {g g' : RxStage} (hc : (v c).rx = some g) (hat : s'.rxPart.At g')
    (hrl : s'.rxLocked = s.rxLocked) (htl : s'.txLocked = s.txLocked) (htp : s'.txPart = s.txPart) :
    Inv s' (Function.update v c { v c with rx := some g' }) := by
  refine of_halves (h.tx_same htl htp) ?_
  rw [hrl]
  exact h.rx.advance hc hat

private theorem acquire (h : Inv s v) {l : Lock} (hl : s.locked l = false) :
    Inv (s.setLock l true) (Function.update v c ((v c).after (.lock l) ())) := by
  cases l with
  | tx =>
    have htx := h.tx
    have hl : s.txLocked = false := hl
    rw [hl] at htx
    exact of_halves (htx.acquire id) (h.rx_same rfl rfl)
  | rx =>
    have hrx := h.rx
    have hl : s.rxLocked = false := hl
    rw [hl] at hrx
    exact of_halves (h.tx_same rfl rfl) (hrx.acquire id)

private theorem release (h : Inv s v) {l : Lock} (ha : (v c).Allowed (.unlock l)) :
    Inv (s.setLock l false) (Function.update v c ((v c).after (.unlock l) ())) := by
  cases l with
  | tx => exact of_halves (h.tx.release ha.1 (h.tx.inside ha.1)) (h.rx_same rfl rfl)
  | rx => exact of_halves (h.tx_same rfl rfl) (h.rx.release ha.1 (h.rx.inside ha.1))

private theorem keep_tx {g : Local} {stage : TxStage} (h : g.tx = some stage) : { g with tx := some stage } = g := by
  rw [← h]

private theorem keep_rx {g : Local} {stage : RxStage} (h : g.rx = some stage) : { g with rx := some stage } = g := by
  rw [← h]

section Transmit
variable {choice : Act} {desc length : Nat} {frame : EthernetFrame}

private theorem txPush (h : Inv s v) {data : List UInt8} {r : Bool} (ha : (v c).Allowed (.txPush data))
    (hr : s.run c choice (.txPush data) = some (r,s')) : r = true ∧ Inv s' (Function.update v c (v c)) := by
  obtain ⟨hg,_,hd⟩ := ha
  obtain ⟨q,hq,hat⟩ := (h.tx.inside hg).push hd
  have hq' : s.tx.txQueue.push data = some q := hq
  simp only [Shared.run, hq'] at hr
  cases hr
  refine ⟨rfl,?_⟩
  rw [← keep_tx hg]
  exact h.tx_step hg hat rfl rfl rfl

private theorem txSize (h : Inv s v) {n : Nat} (ha : (v c).Allowed .txSize)
    (hr : s.run c choice .txSize = some (n,s')) : Inv s' (Function.update v c ((v c).after .txSize n)) := by
  simp only [Shared.run] at hr
  cases hr
  by_cases hs : s.tx.txQueue.size > 0
  · have hw : (v c).after .txSize s.tx.txQueue.size = { v c with tx := some .sized } := if_pos hs
    have hne : ¬ s.tx.txQueue.size = 0 := Nat.ne_of_gt hs
    rw [hw,if_neg hne]
    exact h.tx_step ha.1 ⟨h.tx.inside ha.1,hs⟩ rfl rfl rfl
  · have hw : (v c).after .txSize s.tx.txQueue.size = v c := if_neg hs
    rw [hw,if_pos (Nat.eq_zero_of_not_pos hs)]
    exact h.same rfl rfl rfl rfl

private theorem txDescriptorFree (h : Inv s v) {r : Bool} (ha : (v c).Allowed .txDescriptorFree)
    (hr : s.run c choice .txDescriptorFree = some (r,s')) :
    Inv s' (Function.update v c ((v c).after .txDescriptorFree r)) := by
  obtain ⟨hwf,hs⟩ := h.tx.inside ha.1
  simp only [Shared.run] at hr
  cases hr
  cases ho : s.driverOwns s.tx.currentTxDescriptor with
  | true =>
    have hat : s.txPart.At .free := ⟨hwf,hs,ho⟩
    exact h.tx_step ha.1 hat rfl rfl rfl
  | false =>
    have hat : s.txPart.At .held := hwf
    exact h.tx_step ha.1 hat rfl rfl rfl

private theorem txPop (h : Inv s v) {r : Option (Option EthernetFrame)} (ha : (v c).Allowed .txPop)
    (hr : s.run c choice .txPop = some (r,s')) :
    (∃ frame, r = some (some frame)) ∧ Inv s' (Function.update v c ((v c).after .txPop r)) := by
  obtain ⟨frame,q,hp,hat⟩ := (h.tx.inside ha.1).pop
  have hp' : s.tx.txQueue.pop = some (some frame,q) := hp
  simp only [Shared.run, hp'] at hr
  cases hr
  exact ⟨⟨frame,rfl⟩,h.tx_step ha.1 hat rfl rfl rfl⟩

private theorem currentTxDescriptor (h : Inv s v) (ha : (v c).Allowed .currentTxDescriptor) :
    Inv s (Function.update v c ((v c).after .currentTxDescriptor s.tx.currentTxDescriptor)) := by
  obtain ⟨⟨frame,hg⟩,_⟩ := ha
  simp only [Local.after, hg]
  exact h.tx_step hg ⟨h.tx.inside hg,rfl⟩ rfl rfl rfl

private theorem copyFrame (h : Inv s v) {r : Bool} (ha : (v c).Allowed (.copyFrame desc frame))
    (hr : s.run c choice (.copyFrame desc frame) = some (r,s')) :
    r = true ∧ Inv s' (Function.update v c ((v c).after (.copyFrame desc frame) r)) := by
  obtain ⟨buffer,buffer',hb,hcopy,hat⟩ := (h.tx.inside ha.1).copy
  have hb' : s.tx.txBuffers[desc]? = some buffer := hb
  simp only [Shared.run, hb', hcopy] at hr
  cases hr
  exact ⟨rfl,h.tx_step ha.1 hat rfl rfl rfl⟩

private theorem writeTsad (h : Inv s v) (ha : (v c).Allowed (.writeTsad desc)) :
    Inv { s with tsad := Function.update s.tsad desc (some desc) }
      (Function.update v c ((v c).after (.writeTsad desc) ())) := by
  obtain ⟨⟨frame,hg⟩,_⟩ := ha
  simp only [Local.after, hg]
  exact h.tx_step hg (h.tx.inside hg).address rfl rfl rfl

private theorem writeTsd (h : Inv s v) (ha : (v c).Allowed (.writeTsd desc length))
    (hr : s.run c choice (.writeTsd desc length) = some ((),s')) :
    Inv s' (Function.update v c ((v c).after (.writeTsd desc length) ())) := by
  obtain ⟨⟨frame,hg,rfl⟩,_⟩ := ha
  cases hr
  exact h.tx_step hg ((h.tx.inside hg).send rfl) rfl rfl rfl

end Transmit

section Receive
variable {choice : Act} {offset dataStart dataEnd : Nat}

private theorem rxBufferEmpty (h : Inv s v) (ha : (v c).Allowed .rxBufferEmpty) :
    Inv s (Function.update v c ((v c).after .rxBufferEmpty s.ring.bufferEmpty)) := by
  cases he : s.ring.bufferEmpty with
  | true => exact h.same rfl rfl rfl rfl
  | false => exact h.rx_step ha.1 ((h.rx.inside ha.1).fill he) rfl rfl rfl

private theorem readHeader (h : Inv s v) {r : Option (BitVec 32)} (ha : (v c).Allowed (.readHeader offset))
    (hr : s.run c choice (.readHeader offset) = some (r,s')) :
    Local.Possible (.readHeader offset) r ∧ Inv s' (Function.update v c ((v c).after (.readHeader offset) r)) := by
  obtain ⟨hlt,hrok,hend,hat⟩ := (h.rx.inside ha.1).read
  simp only [Shared.run, hlt, if_true] at hr
  cases hr
  exact ⟨⟨_,rfl,hrok,hend⟩,h.rx_step ha.1 hat rfl rfl rfl⟩

private theorem rxPush (h : Inv s v) {r : Bool} (ha : (v c).Allowed (.rxPush dataStart dataEnd))
    (hr : s.run c choice (.rxPush dataStart dataEnd) = some (r,s')) :
    r = true ∧ Inv s' (Function.update v c ((v c).after (.rxPush dataStart dataEnd) r)) := by
  obtain ⟨_,offset,header,hg,rfl,rfl⟩ := ha
  obtain ⟨packet,q,hend,hslice,hq,hat⟩ := (h.rx.inside hg).push
  have hslice' : s.rxSlice (offset + 4) (offset + 4 + ((header >>> 16).toNat - 4)) = some packet := by
    rw [Shared.rxSlice,if_pos ⟨Nat.le_add_right _ _,hend⟩]
    exact congrArg some hslice
  have hq' : s.rx.rxQueue.push packet = some q := hq
  simp only [Shared.run, hslice', hq'] at hr
  cases hr
  refine ⟨rfl,?_⟩
  simp only [Local.after, hg]
  exact h.rx_step hg hat rfl rfl rfl

private theorem setRxReadOffset (h : Inv s v) (ha : (v c).Allowed (.setRxReadOffset offset)) :
    Inv { s with rx := { s.rx with rxReadOffset := offset } }
      (Function.update v c ((v c).after (.setRxReadOffset offset) ())) := by
  obtain ⟨_,offset,header,hg,rfl⟩ := ha
  exact h.rx_step hg (h.rx.inside hg).advance rfl rfl rfl

private theorem writeCapr (h : Inv s v) {capr : BitVec 16} (ha : (v c).Allowed (.writeCapr capr)) :
    Inv { s with ring := s.ring.release (decodeCapr capr) }
      (Function.update v c ((v c).after (.writeCapr capr) ())) := by
  obtain ⟨_,offset,hg,rfl⟩ := ha
  exact h.rx_step hg (h.rx.inside hg).capr rfl rfl rfl

private theorem rxPop (h : Inv s v) {r : Option (Option EthernetFrame)} (ha : (v c).Allowed .rxPop)
    (hr : s.run c choice .rxPop = some (r,s')) : r.isSome = true ∧ Inv s' (Function.update v c (v c)) := by
  obtain ⟨frame,q,hp,hat⟩ := (h.rx.inside ha.1).pop
  have hp' : s.rx.rxQueue.pop = some (frame,q) := hp
  simp only [Shared.run, hp'] at hr
  cases hr
  refine ⟨rfl,?_⟩
  rw [← keep_rx ha.1]
  exact h.rx_step ha.1 hat rfl rfl rfl

end Receive

/-- What a context does keeps the invariant, and everything is in range. -/
theorem op (h : Inv s v) {choice : Act} {i : Op} {r : i.Result} (ha : (v c).Allowed i)
    (hr : s.run c choice i = some (r,s')) :
    Local.Possible i r ∧ Inv s' (Function.update v c ((v c).after i r)) := by
  cases i with
  | act =>
    cases choice with
    | transmit data =>
      cases hr
      exact ⟨trivial,h.same rfl rfl rfl rfl⟩
    | receivePacket =>
      cases hr
      exact ⟨trivial,h.same rfl rfl rfl rfl⟩
  | awaitInterrupt =>
    simp only [Shared.run] at hr
    split at hr
    · cases hr
      exact ⟨trivial,h.same rfl rfl rfl rfl⟩
    · cases hr
  | lock l =>
    simp only [Shared.run] at hr
    split at hr
    · cases hr
    · rename_i hl
      cases hr
      exact ⟨trivial,h.acquire (Bool.not_eq_true _ ▸ hl)⟩
  | tryLock l =>
    cases l with
    | tx =>
      simp only [Shared.run] at hr
      split at hr
      · cases hr
        exact ⟨trivial,h.same rfl rfl rfl rfl⟩
      · rename_i hl
        cases hr
        exact ⟨trivial,h.acquire (l := .tx) (Bool.not_eq_true _ ▸ hl)⟩
    | rx =>
      cases hr
      cases hl : s.rxLocked with
      | false => exact ⟨trivial,h.acquire (l := .rx) hl⟩
      | true => exact ⟨trivial,h.same rfl rfl hl.symm rfl⟩
  | unlock l =>
    cases hr
    exact ⟨trivial,h.release ha⟩
  | txPush data => exact h.txPush ha hr
  | txSize => exact ⟨trivial,h.txSize ha hr⟩
  | txDescriptorFree => exact ⟨trivial,h.txDescriptorFree ha hr⟩
  | txPop => exact h.txPop ha hr
  | currentTxDescriptor =>
    cases hr
    exact ⟨trivial,h.currentTxDescriptor ha⟩
  | copyFrame desc frame => exact h.copyFrame ha hr
  | writeTsad desc =>
    cases hr
    exact ⟨trivial,h.writeTsad ha⟩
  | writeTsd desc length => exact ⟨trivial,h.writeTsd ha hr⟩
  | nextTxDescriptor =>
    cases hr
    exact ⟨trivial,h.tx_step ha.1 (h.tx.inside ha.1).next rfl rfl rfl⟩
  | rxBufferEmpty =>
    cases hr
    exact ⟨trivial,h.rxBufferEmpty ha⟩
  | rxReadOffset =>
    cases hr
    have hfilled : s.rxPart.At .filled := h.rx.inside ha.1
    have hat : s.rxPart.At (.located s.rx.rxReadOffset) := hfilled
    exact ⟨trivial,h.rx_step ha.1 hat rfl rfl rfl⟩
  | readHeader offset => exact h.readHeader ha hr
  | rxPush dataStart dataEnd => exact h.rxPush ha hr
  | setRxReadOffset offset =>
    cases hr
    exact ⟨trivial,h.setRxReadOffset ha⟩
  | writeCapr capr =>
    cases hr
    exact ⟨trivial,h.writeCapr ha⟩
  | rxPop => exact h.rxPop ha hr
  | panic => exact r.elim
  | _ =>
    cases hr
    exact ⟨trivial,h.same rfl rfl rfl rfl⟩

private theorem ring_grows (h : Inv s v) {ring : RxRing} {isr : InterruptReg} (hr : s.ring.Ok → s.ring.Grows ring) :
    Inv { s with ring, isr } v := by
  have hok : ∀ g, s.rxPart.At g → s.ring.Ok := by
    intro g hg
    cases g with
    | held => exact hg.1.ring
    | filled => exact hg.wf.ring
    | located offset => exact hg.wf.ring
    | read offset header => exact hg.1.wf.ring
    | stored offset header => exact hg.1.ring
    | advanced offset => exact hg.1.ring
  exact ⟨h.tx,h.rx.mono (fun g hg => hg.grow (hr (hok g hg))) fun hg => hg.grow (hr (hok _ hg))⟩

/-- What the card does by itself keeps the invariant. -/
theorem event (h : Inv s v) {e : Event} (he : s.event e = some s') : Inv s' v := by
  cases e with
  | complete desc =>
    simp only [Shared.event] at he
    split at he
    · cases he
      exact ⟨h.tx.mono (fun g hg => hg.complete desc) fun hg => hg.complete desc,h.rx⟩
    · cases he
  | receive p =>
    simp only [Shared.event] at he
    split at he
    · cases he
      refine h.ring_grows fun hok => hok.rewrite _ ?_
      intro p' n hw
      obtain ⟨rfl,rfl⟩ := Prod.mk.inj (Option.some.inj hw)
      exact ⟨Nat.zero_le _,fun i hi => absurd hi (Nat.not_lt_zero i)⟩
    · cases he
  | write =>
    simp only [Shared.event] at he
    split at he
    · cases he
    · rename_i p n hw
      split at he
      · rename_i b hb
        split at he
        · cases he
        · rename_i hk
          cases he
          exact h.ring_grows fun hok => hok.write hw hb (Bool.not_eq_true _ ▸ hk)
      · rename_i hb
        cases he
        exact h.ring_grows fun hok => hok.done hw hb
  | overflow =>
    simp only [Shared.event] at he
    split at he
    · cases he
    · cases he
      exact h.ring_grows fun hok => hok.rewrite none fun _ _ hw => nomatch hw

end Inv

theorem upholds : driver.Upholds protocol (fun _ _ _ _ => True) (fun _ _ => True) Inv where
  sound := body_follows
  op := by
    intro c choice s i r s' v hI ha _ hp
    change (if s.handling && c != .handler then none else s.run c choice i) = _ at hp
    split at hp
    · cases hp
    · exact ⟨_,⟨(hI.op ha hp).1,rfl⟩,(hI.op ha hp).2⟩
  env hI _ he := hI.event he

theorem start_keeping (memory : Bytes) :
    Conc.Keeping protocol Inv (start memory) fun _ => ⟨none,none⟩ := by
  refine ⟨⟨?_,?_⟩,?_⟩
  · refine ⟨nofun,nofun,nofun,fun _ => ?_⟩
    refine ⟨PacketQueue.new_wf,rfl,?_,Nat.succ_pos 3,rfl,rfl,rfl⟩
    intro b hb
    rw [List.eq_of_mem_replicate hb]
    exact List.length_replicate
  · refine ⟨nofun,nofun,nofun,fun _ => ⟨⟨PacketQueue.new_wf,⟨Nat.le_refl _,nofun,nofun⟩,Nat.le_refl _,rfl,rfl⟩,rfl,rfl⟩⟩
  · intro c
    cases c with
    | handler => exact ⟨⟨rfl,rfl⟩,fun _ hf => hf.elim⟩
    | thread n => exact ⟨⟨rfl,rfl⟩,fun _ hf => hf.elim⟩

theorem inv_of_reachable {s : State} (hr : system.Reachable s) : ∃ v, Conc.Keeping protocol Inv s v := by
  apply upholds.always ?_ hr
  rintro _ ⟨memory,rfl⟩
  exact ⟨_,start_keeping memory⟩

/-- The frame that a stage of the transmit section carries. -/
def TxStage.carried : TxStage → List (List UInt8)
  | .popped frame | .aimed _ frame | .copied _ frame | .addressed _ frame => [frame.contents]
  | _ => []

theorem TxPart.At.exists_wf {t : TxPart} {g : TxStage} (h : t.At g) : ∃ ahead, t.Wf ahead g.carried := by
  cases g with
  | held => exact ⟨0,h⟩
  | sized => exact ⟨0,h.1⟩
  | free => exact ⟨0,h.1⟩
  | popped frame => exact ⟨0,h.wf⟩
  | aimed desc frame => exact ⟨0,h.1.wf⟩
  | copied desc frame => exact ⟨0,h.wf⟩
  | addressed desc frame => exact ⟨0,h.1.wf⟩
  | sent => exact ⟨1,h⟩

/-- The context has taken a frame out of the queue and not handed it over yet. -/
def Carrying (s : State) (c : Ctx) : Prop :=
  Conc.Next s c .currentTxDescriptor ∨ (∃ desc frame, Conc.Next s c (.copyFrame desc frame)) ∨
    (∃ desc, Conc.Next s c (.writeTsad desc)) ∨ ∃ desc length, Conc.Next s c (.writeTsd desc length)

section
variable {s : State} {c : Ctx} {g : Local} {stage : TxStage} {v : Ctx → Local}

/-- In a stage with a frame only the next operation on it is allowed. -/
private theorem carrying_of_stage (hf : protocol.Follows (fun _ _ => False) g (s.code c)) (hg : g.tx = some stage)
    (hc : stage.carried ≠ []) : Carrying s c := by
  have hnone : g.tx ≠ none := by
    rw [hg]
    nofun
  have hother : ∀ {stage'}, g.tx = some stage' → stage'.carried = [] → False := by
    intro stage' hg' hc'
    obtain rfl := Option.some.inj (hg.symm.trans hg')
    exact hc hc'
  cases hcode : s.code c with
  | pure a =>
    rw [hcode] at hf
    exact hf.elim
  | call p k =>
    rw [hcode] at hf
    cases p with
    | flushLoop => exact (hother hf.1.1 rfl).elim
    | rxLoop => exact absurd hf.1.2 hnone
    | handler => exact absurd hf.1.1 hnone
    | thread => exact absurd hf.1.1 hnone
  | op i k =>
    rw [hcode] at hf
    have ha := hf.1
    have hn : Conc.Next s c i := ⟨k,hcode⟩
    cases i with
    | currentTxDescriptor => exact .inl hn
    | copyFrame desc frame => exact .inr (.inl ⟨desc,frame,hn⟩)
    | writeTsad desc => exact .inr (.inr (.inl ⟨desc,hn⟩))
    | writeTsd desc length => exact .inr (.inr (.inr ⟨desc,length,hn⟩))
    | unlock l =>
      cases l with
      | tx => exact (hother ha.1 rfl).elim
      | rx => exact absurd ha.2 hnone
    | txPush data => exact (hother ha.1 rfl).elim
    | txSize => exact (hother ha.1 rfl).elim
    | txDescriptorFree => exact (hother ha.1 rfl).elim
    | txPop => exact (hother ha.1 rfl).elim
    | nextTxDescriptor => exact (hother ha.1 rfl).elim
    | rxBufferEmpty => exact absurd ha.2 hnone
    | rxReadOffset => exact absurd ha.2 hnone
    | readHeader offset => exact absurd ha.2 hnone
    | rxPop => exact absurd ha.2 hnone
    | panic => exact ha.elim
    | _ => exact absurd ha.1 hnone

/-- What a context does next is allowed in its stage. -/
private theorem allowed_of_next (h : Conc.Keeping protocol Inv s v) {i : Op} (hn : Conc.Next s c i) :
    (v c).Allowed i := by
  obtain ⟨k,hk⟩ := hn
  have hf := h.2 c
  rw [hk] at hf
  exact hf.1

/-- The transmit side is as it should be, whoever is inside. -/
private theorem tx_wf (h : Conc.Keeping protocol Inv s v) :
    ∃ ahead carried, s.shared.txPart.Wf ahead carried ∧ carried.length ≤ 1 ∧
      ((∀ c, ¬ Carrying s c) → carried = []) := by
  by_cases hnone : ∀ c, (v c).tx = none
  · have hwf : s.shared.txPart.Wf 0 [] := h.1.tx.rest hnone
    exact ⟨0,[],hwf,Nat.zero_le 1,fun _ => rfl⟩
  · obtain ⟨c,hc⟩ := not_forall.mp hnone
    obtain ⟨stage,hg⟩ := Option.ne_none_iff_exists'.mp hc
    obtain ⟨ahead,hwf⟩ := (h.1.tx.inside hg).exists_wf
    refine ⟨ahead,stage.carried,hwf,?_,?_⟩
    · cases stage <;> exact Nat.le_of_ble_eq_true rfl
    · intro hno
      by_contra hne
      exact hno c (carrying_of_stage (h.2 c) hg hne)

end

/-- Every accepted frame is handed to the card once and in order, each descriptor in turn, and the buffers of the
card are left alone. -/
structure SendsInOrder (s : State) : Prop where
  order : ∃ carried, s.shared.history.handed.map Prod.snd ++ carried ++ s.shared.tx.txQueue.contents =
    s.shared.history.accepted ∧ carried.length ≤ 1 ∧ ((∀ c, ¬ Carrying s c) → carried = [])
  cyclic : s.shared.history.handed.map Prod.fst = (List.range s.shared.history.handed.length).map (· % 4)
  copies : ∀ c desc frame, Conc.Next s c (.copyFrame desc frame) → s.shared.driverOwns desc = true
  buffers : ∀ move s' desc, driver.exec s move = some s' →
    s'.shared.tx.txBuffers[desc]? = s.shared.tx.txBuffers[desc]? ∨ s.shared.driverOwns desc = true
  own : ∀ c desc length, Conc.Next s c (.writeTsd desc length) → (BitVec.ofNat 32 length).getLsbD 13 = false
  range : ∀ c, ¬ Conc.Next s c .panic

section
variable {s s' : State} {v : Ctx → Local} {c : Ctx} {desc : Nat} {frame : EthernetFrame}

/-- A frame is copied to the buffer of a descriptor that the driver owns. -/
private theorem owns_of_copyFrame (h : Conc.Keeping protocol Inv s v) (hn : Conc.Next s c (.copyFrame desc frame)) :
    s.shared.driverOwns desc = true := by
  obtain ⟨hc,rfl⟩ := h.1.tx.inside (allowed_of_next h hn).1
  exact hc.owns

private theorem txBuffers_of_event {s s' : Shared} {e : Event} (he : s.event e = some s') : s'.tx = s.tx := by
  cases e <;> simp only [Shared.event] at he
  case complete desc =>
    split at he
    · cases he
      rfl
    · cases he
  case write =>
    split at he
    · cases he
    · split at he
      · split at he
        · cases he
        · cases he
          rfl
      · cases he
        rfl
  all_goals
    split at he <;> cases he
    rfl

private theorem txBuffers_of_exec (h : Conc.Keeping protocol Inv s v) {move : Move Ctx Act Event}
    (he : driver.exec s move = some s') (desc : Nat) :
    s'.shared.tx.txBuffers[desc]? = s.shared.tx.txBuffers[desc]? ∨ s.shared.driverOwns desc = true := by
  cases move with
  | env e =>
    simp only [Conc.exec] at he
    split at he
    · cases he
    · rename_i shared hp
      cases he
      have htx : shared.tx = s.shared.tx := txBuffers_of_event hp
      exact .inl (by rw [htx])
  | run c choice =>
    simp only [Conc.exec] at he
    split at he
    · cases he
    · cases he
      exact .inl rfl
    · rename_i i k hcode
      split at he
      · cases he
      · rename_i r shared hp
        cases he
        change (if s.shared.handling && c != .handler then none else s.shared.run c choice i) = _ at hp
        split at hp
        · cases hp
        · by_cases hi : ∀ desc frame, i ≠ .copyFrame desc frame
          · exact .inl (by rw [(frame_of_run hp).buffers hi])
          · push Not at hi
            obtain ⟨desc',frame,rfl⟩ := hi
            have howns := owns_of_copyFrame h ⟨k,hcode⟩
            by_cases hd : desc' = desc
            · exact .inr (hd ▸ howns)
            · simp only [Shared.run] at hp
              split at hp
              · cases hp
                exact .inl rfl
              · split at hp
                · cases hp
                  exact .inl rfl
                · cases hp
                  exact .inl (List.getElem?_set_ne hd)

end

theorem frames_sent_in_order {s : State} (hr : system.Reachable s) : SendsInOrder s := by
  obtain ⟨v,hv⟩ := inv_of_reachable hr
  obtain ⟨ahead,carried,hwf,hlen,hnone⟩ := tx_wf hv
  constructor
  case order => exact ⟨carried,hwf.order,hlen,hnone⟩
  case cyclic => exact hwf.cyclic
  case copies => exact fun c desc frame hn => owns_of_copyFrame hv hn
  case buffers => exact fun move s' desc he => txBuffers_of_exec hv he desc
  case own =>
    intro c desc length hn
    obtain ⟨⟨frame,hg,rfl⟩,_⟩ := allowed_of_next hv hn
    exact TxPart.not_owns_length (hv.1.tx.inside hg).1.fits
  case range => exact fun c hn => allowed_of_next hv hn

/-- The second thread comes between the push of the first one and its flush, and hands over the frames of both. -/
theorem frames_sent_in_order_sample :
    ∃ s : State, system.Reachable s ∧ s.shared.history.handed = [(0,[1,2]),(1,[3])] ∧ SendsInOrder s := by
  have hrun : (driver.execAll (fun _ _ => true) (start fun _ => 0)
      (moves (.thread 0) (.transmit [1,2]) 5 ++ moves (.thread 1) (.transmit [3]) 23)).any
      (fun s => s.shared.history.handed == [(0,[1,2]),(1,[3])]) = true := by decide +kernel
  obtain ⟨s,hs,hgoal⟩ := (Option.any_eq_true _ _).mp hrun
  have hr := reachable_of_execAll hs
  exact ⟨s,hr.of_restrict,eq_of_beq hgoal,frames_sent_in_order hr.of_restrict⟩

/-- The driver reads the packets that the card has written, one after the other, and tells it so. -/
structure ReadsInStep (s : State) : Prop where
  offset : ∀ c, Conc.Next s c .rxBufferEmpty ∨ Conc.Next s c .rxReadOffset →
    s.shared.ring.released = s.shared.history.taken.length ∧
    s.shared.rx.rxReadOffset = s.shared.ring.start s.shared.history.taken.length
  taken : s.shared.history.taken = (s.shared.ring.packets.take s.shared.history.taken.length).map Packet.payload
  slice : ∀ c dataStart dataEnd, Conc.Next s c (.rxPush dataStart dataEnd) →
    ∃ p, s.shared.ring.packets[s.shared.history.taken.length]? = some p ∧
      s.shared.rxSlice dataStart dataEnd = some p.payload
  capr : ∀ c capr, Conc.Next s c (.writeCapr capr) →
    decodeCapr capr = s.shared.rx.rxReadOffset ∧
    s.shared.rx.rxReadOffset = s.shared.ring.start s.shared.history.taken.length ∧
    s.shared.ring.released + 1 = s.shared.history.taken.length ∧
    (s.shared.ring.release (decodeCapr capr)).released = s.shared.history.taken.length
  range : ∀ c, ¬ Conc.Next s c .panic

section
variable {s : State} {v : Ctx → Local} {c : Ctx}

private theorem RxPart.Wf.length_taken {t : RxPart} {n : Nat} (h : t.Wf n) : t.taken.length = n := by
  rw [h.taken,List.length_map,List.length_take]
  exact Nat.min_eq_left h.bound

theorem RxPart.At.exists_wf {t : RxPart} {g : RxStage} (h : t.At g) : ∃ n, t.Wf n := by
  cases g with
  | held => exact ⟨_,h.1⟩
  | filled => exact ⟨_,Located.wf h⟩
  | located offset => exact ⟨_,Located.wf h⟩
  | read offset header => exact ⟨_,h.1.wf⟩
  | stored offset header => exact ⟨_,h.1⟩
  | advanced offset => exact ⟨_,h.1⟩

private theorem rx_wf (h : Conc.Keeping protocol Inv s v) : ∃ n, s.shared.rxPart.Wf n :=
  h.1.rx.data (fun _ hg => hg.exists_wf) fun hrest => hrest.exists_wf

private theorem offset_of_agrees {t : RxPart} (hwf : t.Wf t.ring.released) (ha : t.Agrees) :
    t.ring.released = t.taken.length ∧ t.rx.rxReadOffset = t.ring.start t.taken.length := by
  rw [hwf.length_taken]
  exact ⟨rfl,ha.offset⟩

private theorem offset_of_next (h : Conc.Keeping protocol Inv s v)
    (hn : Conc.Next s c .rxBufferEmpty ∨ Conc.Next s c .rxReadOffset) :
    s.shared.ring.released = s.shared.history.taken.length ∧
      s.shared.rx.rxReadOffset = s.shared.ring.start s.shared.history.taken.length := by
  rcases hn with hn | hn
  · have hheld : s.shared.rxPart.At .held := h.1.rx.inside (allowed_of_next h hn).1
    exact offset_of_agrees hheld.1 hheld.2
  · have hfilled : s.shared.rxPart.At .filled := h.1.rx.inside (allowed_of_next h hn).1
    exact offset_of_agrees (RxPart.Located.wf hfilled) (RxPart.Located.agrees hfilled)

private theorem slice_of_next (h : Conc.Keeping protocol Inv s v) {dataStart dataEnd : Nat}
    (hn : Conc.Next s c (.rxPush dataStart dataEnd)) :
    ∃ p, s.shared.ring.packets[s.shared.history.taken.length]? = some p ∧
      s.shared.rxSlice dataStart dataEnd = some p.payload := by
  obtain ⟨_,offset,header,hg,rfl,rfl⟩ := allowed_of_next h hn
  have hread : s.shared.rxPart.At (.read offset header) := h.1.rx.inside hg
  obtain ⟨hend,p,hp,hslice⟩ := hread.slice
  refine ⟨p,?_,?_⟩
  · have hlen : s.shared.history.taken.length = s.shared.ring.released := hread.1.wf.length_taken
    rw [hlen]
    exact hp
  · rw [Shared.rxSlice,if_pos ⟨Nat.le_add_right _ _,hend⟩]
    exact congrArg some hslice

private theorem capr_of_next (h : Conc.Keeping protocol Inv s v) {capr : BitVec 16}
    (hn : Conc.Next s c (.writeCapr capr)) :
    decodeCapr capr = s.shared.rx.rxReadOffset ∧
      s.shared.rx.rxReadOffset = s.shared.ring.start s.shared.history.taken.length ∧
      s.shared.ring.released + 1 = s.shared.history.taken.length ∧
      (s.shared.ring.release (decodeCapr capr)).released = s.shared.history.taken.length := by
  obtain ⟨_,offset,hg,rfl⟩ := allowed_of_next h hn
  have hadvanced : s.shared.rxPart.At (.advanced offset) := h.1.rx.inside hg
  obtain ⟨hwf,hoffset,hstart⟩ := id hadvanced
  have hlen : s.shared.history.taken.length = s.shared.ring.released + 1 := hwf.length_taken
  have hlt : offset < 8192 := by
    rw [hstart]
    exact (RxRing.start_bound _).1
  have hreleased : s.shared.history.taken.length =
      (s.shared.ring.release (decodeCapr (BitVec.ofNat 16 offset - 16))).released := hadvanced.capr.1.length_taken
  refine ⟨?_,?_,hlen.symm,hreleased.symm⟩
  · rw [decodeCapr_offset hlt]
    exact hoffset
  · rw [hlen]
    exact hoffset.symm.trans hstart

end

theorem packets_read_in_step {s : State} (hr : system.Reachable s) : ReadsInStep s := by
  obtain ⟨v,hv⟩ := inv_of_reachable hr
  obtain ⟨n,hwf⟩ := rx_wf hv
  constructor
  case offset => exact fun c hn => offset_of_next hv hn
  case taken =>
    have hlen : s.shared.history.taken.length = n := hwf.length_taken
    rw [hlen]
    exact hwf.taken
  case slice => exact fun c dataStart dataEnd hn => slice_of_next hv hn
  case capr => exact fun c capr hn => capr_of_next hv hn
  case range => exact fun c hn => allowed_of_next hv hn

/-- Small packets. -/
def ping : Packet := ⟨1,[7,8,9],[0,0,0,0],by decide,rfl,by decide,rfl⟩

def pong : Packet := ⟨1,[5],[0,0,0,0],by decide,rfl,by decide,rfl⟩

theorem packets_read_in_step_sample :
    ∃ s : State, system.Reachable s ∧ s.shared.history.taken = [[7,8,9],[5]] ∧ ReadsInStep s := by
  have hrun : (driver.execAll (fun _ _ => true) (start fun _ => 0)
      (arrival ping ++ arrival pong ++ moves .handler .receivePacket 16)).any
      (fun s => s.shared.history.taken == [[7,8,9],[5]]) = true := by decide +kernel
  obtain ⟨s,hs,hgoal⟩ := (Option.any_eq_true _ _).mp hrun
  have hr := reachable_of_execAll hs
  exact ⟨s,hr.of_restrict,eq_of_beq hgoal,packets_read_in_step hr.of_restrict⟩

end HeineOS.Rtl8139
