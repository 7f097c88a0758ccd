import HeineOS.Device.Rtl8139

/-! The protocol of the driver: how far a context has come in the sections of the two locks, and that all its code
keeps to it. -/
namespace HeineOS.Rtl8139
open Lib Protocol

/-- How far a context that holds the transmit lock has come with a frame. -/
inductive TxStage where
  | held
  | sized
  | free
  | popped (frame : EthernetFrame)
  | aimed (desc : Nat) (frame : EthernetFrame)
  | copied (desc : Nat) (frame : EthernetFrame)
  | addressed (desc : Nat) (frame : EthernetFrame)
  | sent

/-- How far a context that holds the receive lock has come with a packet. -/
inductive RxStage where
  | held
  | filled
  | located (offset : Nat)
  | read (offset : Nat) (header : BitVec 32)
  | stored (offset : Nat) (header : BitVec 32)
  | advanced (offset : Nat)

structure Local where
  tx : Option TxStage
  rx : Option RxStage

namespace Local
variable (g : Local)

def Outside : Prop := g.tx = none ∧ g.rx = none

def after : (i : Op) → i.Result → Local
  | .lock .tx, _ => { g with tx := some .held }
  | .lock .rx, _ => { g with rx := some .held }
  | .tryLock .tx, r => if r then { g with tx := some .held } else g
  | .tryLock .rx, r => if r then { g with rx := some .held } else g
  | .unlock .tx, _ => { g with tx := none }
  | .unlock .rx, _ => { g with rx := none }
  | .txSize, n => if n > 0 then { g with tx := some .sized } else g
  | .txDescriptorFree, r => { g with tx := some (if r then .free else .held) }
  | .txPop, r => { g with tx := some (match r with | some (some frame) => .popped frame | _ => .held) }
  | .currentTxDescriptor, desc =>
    match g.tx with
    | some (.popped frame) => { g with tx := some (.aimed desc frame) }
    | _ => g
  | .copyFrame desc frame, _ => { g with tx := some (.copied desc frame) }
  | .writeTsad desc, _ =>
    match g.tx with
    | some (.copied _ frame) => { g with tx := some (.addressed desc frame) }
    | _ => g
  | .writeTsd _ _, _ => { g with tx := some .sent }
  | .nextTxDescriptor, _ => { g with tx := some .held }
  | .rxBufferEmpty, r => if r then g else { g with rx := some .filled }
  | .rxReadOffset, offset => { g with rx := some (.located offset) }
  | .readHeader offset, r => { g with rx := r.map fun header => .read offset header }
  | .rxPush _ _, _ =>
    match g.rx with
    | some (.read offset header) => { g with rx := some (.stored offset header) }
    | _ => g
  | .setRxReadOffset offset, _ => { g with rx := some (.advanced offset) }
  | .writeCapr _, _ => { g with rx := some .held }
  | _, _ => g

/-- The receive lock is not taken under the transmit lock, nor the other way round. -/
def Allowed : Op → Prop
  | .lock _ | .tryLock _ => g.Outside
  | .unlock .tx => g.tx = some .held ∧ g.rx = none
  | .unlock .rx => g.rx = some .held ∧ g.tx = none
  | .txPush data => g.tx = some .held ∧ g.rx = none ∧ data.length ≤ 1792
  | .txSize => g.tx = some .held ∧ g.rx = none
  | .txDescriptorFree => g.tx = some .sized ∧ g.rx = none
  | .txPop => g.tx = some .free ∧ g.rx = none
  | .currentTxDescriptor => (∃ frame, g.tx = some (.popped frame)) ∧ g.rx = none
  | .copyFrame desc frame => g.tx = some (.aimed desc frame) ∧ g.rx = none
  | .writeTsad desc => (∃ frame, g.tx = some (.copied desc frame)) ∧ g.rx = none
  | .writeTsd desc length => (∃ frame, g.tx = some (.addressed desc frame) ∧ length = frame.length) ∧ g.rx = none
  | .nextTxDescriptor => g.tx = some .sent ∧ g.rx = none
  | .rxBufferEmpty => g.rx = some .held ∧ g.tx = none
  | .rxReadOffset => g.rx = some .filled ∧ g.tx = none
  | .readHeader offset => g.rx = some (.located offset) ∧ g.tx = none
  | .rxPush dataStart dataEnd => g.tx = none ∧ ∃ offset header, g.rx = some (.read offset header) ∧
      dataStart = offset + 4 ∧ dataEnd = offset + 4 + ((header >>> 16).toNat - 4)
  | .setRxReadOffset offset' => g.tx = none ∧ ∃ offset header, g.rx = some (.stored offset header) ∧
      offset' = nextOffset offset (header >>> 16).toNat
  | .writeCapr capr => g.tx = none ∧ ∃ offset, g.rx = some (.advanced offset) ∧ capr = BitVec.ofNat 16 offset - 16
  | .rxPop => g.rx = some .held ∧ g.tx = none
  | .panic => False
  | _ => g.Outside

/-- Everything is in range, a queue that is not empty has a frame, and the header is one of a good packet that fits
into the buffer. -/
def Possible : (i : Op) → i.Result → Prop
  | .txPush _, r => r = true
  | .txPop, r => ∃ frame, r = some (some frame)
  | .copyFrame _ _, r => r = true
  | .readHeader offset, r => ∃ header : BitVec 32, r = some header ∧ header.getLsbD 0 = true ∧
      offset + 4 + ((header >>> 16).toNat - 4) ≤ rxBufferSize
  | .rxPush _ _, r => r = true
  | .rxPop, r => r.isSome = true
  | _, _ => True

end Local

def protocol : Protocol Op.Result Proc Local where
  allowed := Local.Allowed
  next g i r g' := Local.Possible i r ∧ g' = g.after i r
  pre
    | .flushLoop, g => g.tx = some .held ∧ g.rx = none
    | .rxLoop, g => g.rx = some .held ∧ g.tx = none
    | .handler, g | .thread, g => g.Outside
  post
    | .flushLoop, g, g' | .rxLoop, g, g' => g' = g
    | .handler, _, _ | .thread, _, _ => False

section
variable {α : Type} {g : Local}

theorem perform_follows {Q : Local → α → Prop} {i : Op} {f : i.Result → Code α} (ha : g.Allowed i)
    (hf : ∀ r, Local.Possible i r → protocol.Follows Q (g.after i r) (f r)) :
    protocol.Follows Q g (perform i >>= f) := by
  refine ⟨ha,?_⟩
  intro r g' hn
  obtain ⟨hr,rfl⟩ := hn
  exact hf r hr

theorem last_follows {i : Op} {Q : Local → i.Result → Prop} (ha : g.Allowed i)
    (hf : ∀ r, Local.Possible i r → Q (g.after i r) r) : protocol.Follows Q g (perform i) := by
  refine ⟨ha,?_⟩
  intro r g' hn
  obtain ⟨hr,rfl⟩ := hn
  exact hf r hr

theorem flushTxQueue_follows {Q : Local → Unit → Prop} (hQ : Q ⟨none,none⟩ ()) :
    protocol.Follows Q ⟨none,none⟩ flushTxQueue := by
  refine perform_follows ⟨rfl,rfl⟩ fun taken _ => ?_
  cases taken with
  | false => exact hQ
  | true =>
    refine ⟨⟨rfl,rfl⟩,?_⟩
    rintro _ rfl
    exact last_follows ⟨rfl,rfl⟩ fun _ _ => hQ

theorem transmit_follows (data : List UInt8) :
    protocol.Follows (fun g _ => g = ⟨none,none⟩) ⟨none,none⟩ (transmit data) := by
  refine perform_follows ⟨rfl,rfl⟩ fun _ _ => ?_
  split
  · exact last_follows ⟨rfl,rfl⟩ fun _ _ => rfl
  · rename_i hl
    refine perform_follows ⟨rfl,rfl,Nat.not_lt.mp hl⟩ fun r hr => ?_
    obtain rfl : r = true := hr
    exact perform_follows ⟨rfl,rfl⟩ fun _ _ => flushTxQueue_follows rfl

theorem flushRound_follows : protocol.Follows (fun g _ => g = ⟨some .held,none⟩) ⟨some .held,none⟩ flushRound := by
  refine perform_follows ⟨rfl,rfl⟩ fun size _ => ?_
  by_cases hs : size > 0
  · rw [if_pos hs]
    have hg : Local.after ⟨some .held,none⟩ .txSize size = ⟨some .sized,none⟩ := if_pos hs
    rw [hg]
    refine perform_follows ⟨rfl,rfl⟩ fun free _ => ?_
    cases free with
    | false => rfl
    | true =>
      refine perform_follows ⟨rfl,rfl⟩ fun r hr => ?_
      obtain ⟨frame,rfl⟩ := hr
      refine perform_follows ⟨⟨frame,rfl⟩,rfl⟩ fun desc _ => ?_
      refine perform_follows ⟨rfl,rfl⟩ fun copied hc => ?_
      obtain rfl : copied = true := hc
      refine perform_follows ⟨⟨frame,rfl⟩,rfl⟩ fun _ _ => ?_
      refine perform_follows ⟨⟨frame,rfl,rfl⟩,rfl⟩ fun _ _ => ?_
      exact perform_follows ⟨rfl,rfl⟩ fun _ _ => ⟨⟨rfl,rfl⟩,fun _ h => h⟩
  · rw [if_neg hs]
    exact if_neg hs

theorem rxRound_follows : protocol.Follows (fun g _ => g = ⟨none,some .held⟩) ⟨none,some .held⟩ rxRound := by
  refine perform_follows ⟨rfl,rfl⟩ fun empty _ => ?_
  cases empty with
  | true => rfl
  | false =>
    refine perform_follows ⟨rfl,rfl⟩ fun offset _ => ?_
    refine perform_follows ⟨rfl,rfl⟩ fun r hr => ?_
    obtain ⟨header,rfl,hrok,hend⟩ := hr
    have hadvance : protocol.Follows (fun g _ => g = ⟨none,some .held⟩) ⟨none,some (.stored offset header)⟩ (do
        perform (.setRxReadOffset (nextOffset offset (header >>> 16).toNat))
        perform (.writeCapr (BitVec.ofNat 16 (nextOffset offset (header >>> 16).toNat) - 16))
        call .rxLoop) := by
      refine perform_follows ⟨rfl,offset,header,rfl,rfl⟩ fun _ _ => ?_
      exact perform_follows ⟨rfl,_,rfl,rfl⟩ fun _ _ => ⟨⟨rfl,rfl⟩,fun _ h => h⟩
    simp only [hrok, if_true, hend]
    refine perform_follows ⟨rfl,offset,header,rfl,rfl,rfl⟩ fun stored hs => ?_
    obtain rfl : stored = true := hs
    exact hadvance

theorem processRxBuffer_follows {Q : Local → Unit → Prop} (hQ : Q ⟨none,none⟩ ()) :
    protocol.Follows Q ⟨none,none⟩ processRxBuffer := by
  refine perform_follows ⟨rfl,rfl⟩ fun taken _ => ?_
  cases taken with
  | false => exact hQ
  | true =>
    refine ⟨⟨rfl,rfl⟩,?_⟩
    rintro _ rfl
    exact last_follows ⟨rfl,rfl⟩ fun _ _ => hQ

theorem receivePacket_follows : protocol.Follows (fun g _ => g = ⟨none,none⟩) ⟨none,none⟩ receivePacket := by
  refine perform_follows ⟨rfl,rfl⟩ fun _ _ => perform_follows ⟨rfl,rfl⟩ fun r hr => ?_
  cases r with
  | none => cases hr
  | some frame => exact last_follows ⟨rfl,rfl⟩ fun _ _ => rfl

theorem trigger_follows : protocol.Follows (fun g _ => g = ⟨none,none⟩) ⟨none,none⟩ trigger := by
  refine perform_follows ⟨rfl,rfl⟩ fun status _ => ?_
  have hack : protocol.Follows (fun g _ => g = ⟨none,none⟩) ⟨none,none⟩ (perform (.acknowledgeInterrupt status)) :=
    last_follows ⟨rfl,rfl⟩ fun _ _ => rfl
  have htx : protocol.Follows (fun g _ => g = ⟨none,none⟩) ⟨none,none⟩ (do
      if status.transmitOk then flushTxQueue
      perform (.acknowledgeInterrupt status)) := by
    cases status.transmitOk with
    | false => exact hack
    | true => exact Follows.bind (flushTxQueue_follows hack)
  cases status.receiveOk || status.rxOverflow with
  | false =>
    simp only [Bool.false_eq_true, if_false]
    exact htx
  | true =>
    simp only [if_true]
    exact Follows.bind (processRxBuffer_follows htx)

theorem body_follows : protocol.Sound Proc.body := by
  intro p g hp
  obtain ⟨tx,rx⟩ := g
  cases p with
  | flushLoop =>
    obtain ⟨rfl,rfl⟩ := hp
    exact flushRound_follows
  | rxLoop =>
    obtain ⟨rfl,rfl⟩ := hp
    exact rxRound_follows
  | handler =>
    obtain ⟨rfl,rfl⟩ := hp
    refine perform_follows ⟨rfl,rfl⟩ fun _ _ => Follows.bind (trigger_follows.mono ?_)
    rintro _ _ rfl
    exact perform_follows ⟨rfl,rfl⟩ fun _ _ => ⟨⟨rfl,rfl⟩,fun _ hf => hf.elim⟩
  | thread =>
    obtain ⟨rfl,rfl⟩ := hp
    refine perform_follows ⟨rfl,rfl⟩ fun act _ => ?_
    cases act with
    | transmit data =>
      refine Follows.bind ((transmit_follows data).mono ?_)
      rintro _ _ rfl
      exact ⟨⟨rfl,rfl⟩,fun _ hf => hf.elim⟩
    | receivePacket =>
      refine Follows.bind (receivePacket_follows.mono ?_)
      rintro _ _ rfl
      exact ⟨⟨rfl,rfl⟩,fun _ hf => hf.elim⟩

end

end HeineOS.Rtl8139
