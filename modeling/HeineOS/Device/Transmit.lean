import HeineOS.Device.Sections

/-! What the transmit lock guards, stage by stage: the queue, the buffers and the four descriptors, and the frames
that went through them. -/
namespace HeineOS.Rtl8139
open Lib

/-- The transmit side of the driver and of the card. -/
structure TxPart where
  tx : TxState
  tsd : Nat → BitVec 32
  tsad : Nat → Option Nat
  accepted : List (List UInt8)
  handed : List (Nat × List UInt8)

def Shared.txPart (s : Shared) : TxPart := ⟨s.tx,s.tsd,s.tsad,s.history.accepted,s.history.handed⟩

namespace TxPart

/-- The descriptors are used in turn, `ahead` of them not counted yet, and every accepted frame was handed over, is
carried by the holder of the lock or waits. -/
structure Wf (t : TxPart) (ahead : Nat) (carried : List (List UInt8)) : Prop where
  queue : t.tx.txQueue.Wf
  buffers : t.tx.txBuffers.length = 4
  sizes : ∀ b ∈ t.tx.txBuffers, b.length = 2048
  descriptor : t.tx.currentTxDescriptor < 4
  turn : (t.tx.currentTxDescriptor + ahead) % 4 = t.handed.length % 4
  cyclic : t.handed.map Prod.fst = (List.range t.handed.length).map (· % 4)
  order : t.handed.map Prod.snd ++ carried ++ t.tx.txQueue.contents = t.accepted

def owns (t : TxPart) (desc : Nat) : Bool := (t.tsd desc).getLsbD 13

/-- A frame was taken out of the queue while the driver owns the current descriptor. -/
structure Carries (t : TxPart) (frame : EthernetFrame) : Prop where
  wf : t.Wf 0 [frame.contents]
  fits : frame.Wf
  owns : t.owns t.tx.currentTxDescriptor = true

/-- The frame is in the buffer of the current descriptor. -/
structure Copied (t : TxPart) (desc : Nat) (frame : EthernetFrame) : Prop extends t.Carries frame where
  current : desc = t.tx.currentTxDescriptor
  copied : ∃ buffer, t.tx.txBuffers[desc]? = some buffer ∧ buffer.take frame.length = frame.contents

def At (t : TxPart) : TxStage → Prop
  | .held => t.Wf 0 []
  | .sized => t.Wf 0 [] ∧ 0 < t.tx.txQueue.size
  | .free => t.Wf 0 [] ∧ 0 < t.tx.txQueue.size ∧ t.owns t.tx.currentTxDescriptor = true
  | .popped frame => t.Carries frame
  | .aimed desc frame => t.Carries frame ∧ desc = t.tx.currentTxDescriptor
  | .copied desc frame => t.Copied desc frame
  | .addressed desc frame => t.Copied desc frame ∧ t.tsad desc = some desc
  | .sent => t.Wf 1 []

variable {t : TxPart} {desc : Nat} {frame : EthernetFrame}

/-- A frame of at most 1792 bytes is accepted exactly if there is room. -/
theorem At.push (h : t.At .held) {data : List UInt8} (hd : data.length ≤ 1792) :
    ∃ q, t.tx.txQueue.push data = some q ∧
      At { t with
        tx := { t.tx with txQueue := q }
        accepted := if (data.length ≤ 1792 && t.tx.txQueue.size < queueCapacity : Bool) then t.accepted ++ [data]
          else t.accepted } .held := by
  by_cases hs : t.tx.txQueue.size < queueCapacity
  · obtain ⟨q,hq,hwf,hc,_,_⟩ := h.queue.push_fits hs (hd.trans (by decide))
    refine ⟨q,hq,hwf,h.buffers,h.sizes,h.descriptor,h.turn,h.cyclic,?_⟩
    simp only [hd, hs, decide_true, Bool.and_self, if_true, hc]
    rw [← h.order,← List.append_assoc]
  · have hfull : t.tx.txQueue.size = queueCapacity := Nat.le_antisymm h.queue.size (Nat.not_lt.mp hs)
    refine ⟨_,PacketQueue.push_drops (.inl hfull),?_,h.buffers,h.sizes,h.descriptor,h.turn,h.cyclic,?_⟩
    · exact h.queue.dropped _
    · simp only [hd, hs, decide_true, decide_false, Bool.and_false, Bool.false_eq_true, if_false]
      exact h.order

theorem At.pop (h : t.At .free) :
    ∃ frame q, t.tx.txQueue.pop = some (some frame,q) ∧ At { t with tx := { t.tx with txQueue := q } } (.popped frame) := by
  obtain ⟨hwf,hs,howns⟩ := h
  obtain ⟨frame,q,hp,hf,hq,hc,_,_⟩ := hwf.queue.pop_oldest hs
  refine ⟨frame,q,hp,⟨hq,hwf.buffers,hwf.sizes,hwf.descriptor,hwf.turn,hwf.cyclic,?_⟩,hf,howns⟩
  have horder := hwf.order
  rw [hc,List.append_nil] at horder
  rw [← horder,List.append_assoc]
  rfl

/-- The frame fits into the buffer of the current descriptor. -/
theorem At.copy (h : t.At (.aimed desc frame)) :
    ∃ buffer buffer', t.tx.txBuffers[desc]? = some buffer ∧
      copyFromSlice buffer frame.length frame.contents = some buffer' ∧
      At { t with tx := { t.tx with txBuffers := t.tx.txBuffers.set desc buffer' } } (.copied desc frame) := by
  obtain ⟨hc,rfl⟩ := h
  have hlt : t.tx.currentTxDescriptor < t.tx.txBuffers.length := by
    rw [hc.wf.buffers]
    exact hc.wf.descriptor
  obtain ⟨buffer,hb⟩ : ∃ buffer, t.tx.txBuffers[t.tx.currentTxDescriptor]? = some buffer :=
    ⟨_,List.getElem?_eq_getElem hlt⟩
  have hsize := hc.wf.sizes buffer (List.mem_of_getElem? hb)
  have hlen : frame.contents.length = frame.length := by
    rw [EthernetFrame.contents,List.length_take,hc.fits.data]
    exact Nat.min_eq_left hc.fits.length
  have hfits : frame.contents.length ≤ buffer.length := by
    rw [hlen,hsize]
    exact hc.fits.length
  have hcopy := copyFromSlice_eq hfits
  rw [hlen] at hcopy
  refine ⟨buffer,_,hb,hcopy,⟨⟨hc.wf.queue,?_,?_,hc.wf.descriptor,hc.wf.turn,hc.wf.cyclic,hc.wf.order⟩,hc.fits,hc.owns⟩,
    rfl,_,List.getElem?_set_self hlt,?_⟩
  · rw [List.length_set]
    exact hc.wf.buffers
  · intro b hb'
    rcases List.mem_or_eq_of_mem_set hb' with hb' | rfl
    · exact hc.wf.sizes b hb'
    · rw [← hlen,length_copied hfits]
      exact hsize
  · rw [← hlen,List.take_left]

theorem At.address (h : t.At (.copied desc frame)) :
    At { t with tsad := Function.update t.tsad desc (some desc) } (.addressed desc frame) :=
  ⟨⟨⟨⟨h.wf.queue,h.wf.buffers,h.wf.sizes,h.wf.descriptor,h.wf.turn,h.wf.cyclic,h.wf.order⟩,h.fits,h.owns⟩,h.current,
    h.copied⟩,Function.update_self _ _ _⟩

/-- Handing over the next frame keeps the descriptors in turn. -/
private theorem cyclic_snoc {handed : List (Nat × List UInt8)} {x : Nat × List UInt8}
    (h : handed.map Prod.fst = (List.range handed.length).map (· % 4)) (hx : x.1 = handed.length % 4) :
    (handed ++ [x]).map Prod.fst = (List.range (handed ++ [x]).length).map (· % 4) := by
  rw [List.map_append,h,List.length_append,List.length_singleton,List.range_succ,List.map_append,List.map_singleton,
    List.map_singleton,hx]

/-- What is handed over is the frame. -/
theorem At.send (h : t.At (.addressed desc frame)) {out : List UInt8}
    (hout : out = match t.tsad desc with
      | none => []
      | some i => (t.tx.txBuffers[i]?.getD []).take frame.length) :
    At { t with
      tsd := Function.update t.tsd desc (BitVec.ofNat 32 frame.length)
      handed := t.handed ++ [(desc,out)] } .sent := by
  obtain ⟨hc,hts⟩ := h
  obtain ⟨buffer,hb,htake⟩ := hc.copied
  have hcontents : out = frame.contents := by
    rw [hout,hts]
    simp only [hb, Option.getD_some]
    exact htake
  have hdesc : desc = t.handed.length % 4 := by
    rw [hc.current,← hc.wf.turn,Nat.add_zero,Nat.mod_eq_of_lt hc.wf.descriptor]
  refine ⟨hc.wf.queue,hc.wf.buffers,hc.wf.sizes,hc.wf.descriptor,?_,cyclic_snoc hc.wf.cyclic hdesc,?_⟩
  · change (t.tx.currentTxDescriptor + 1) % 4 = (t.handed ++ [(desc,out)]).length % 4
    have hturn := hc.wf.turn
    rw [List.length_append,List.length_singleton]
    omega
  · change (t.handed ++ [(desc,out)]).map Prod.snd ++ [] ++ t.tx.txQueue.contents = t.accepted
    rw [List.map_append,List.append_nil,List.map_singleton,hcontents]
    exact hc.wf.order

theorem At.next (h : t.At .sent) :
    At { t with tx := { t.tx with currentTxDescriptor := (t.tx.currentTxDescriptor + 1) % 4 } } .held := by
  have hwf : t.Wf 1 [] := h
  refine ⟨hwf.queue,hwf.buffers,hwf.sizes,Nat.mod_lt _ (by decide),?_,hwf.cyclic,hwf.order⟩
  change ((t.tx.currentTxDescriptor + 1) % 4 + 0) % 4 = _
  rw [Nat.add_zero,Nat.mod_mod]
  exact hwf.turn

/-- The bit that the card sets says that the driver owns the descriptor again. -/
theorem owns_complete (desc' : Nat) (h : t.owns desc' = true) :
    owns { t with tsd := Function.update t.tsd desc (t.tsd desc ||| 1#32 <<< 13) } desc' = true := by
  change (Function.update t.tsd desc _ desc').getLsbD 13 = true
  by_cases hd : desc' = desc
  · rw [hd,Function.update_self,BitVec.getLsbD_or]
    exact Bool.or_eq_true_iff.mpr (.inr rfl)
  · rw [Function.update_of_ne hd]
    exact h

/-- The length of a frame does not reach the OWN bit. -/
theorem not_owns_length (h : frame.Wf) : (BitVec.ofNat 32 frame.length).getLsbD 13 = false := by
  have hlt : frame.length < 2^13 := h.length.trans_lt (by decide)
  rw [BitVec.getLsbD_ofNat,Nat.testBit_lt_two_pow hlt,Bool.and_false]

theorem At.complete {g : TxStage} (h : t.At g) (desc : Nat) :
    At { t with tsd := Function.update t.tsd desc (t.tsd desc ||| 1#32 <<< 13) } g := by
  have hwf : ∀ {ahead carried}, t.Wf ahead carried →
      Wf { t with tsd := Function.update t.tsd desc (t.tsd desc ||| 1#32 <<< 13) } ahead carried :=
    fun h => ⟨h.queue,h.buffers,h.sizes,h.descriptor,h.turn,h.cyclic,h.order⟩
  have hcarries : ∀ {frame}, t.Carries frame →
      Carries { t with tsd := Function.update t.tsd desc (t.tsd desc ||| 1#32 <<< 13) } frame :=
    fun h => ⟨hwf h.wf,h.fits,owns_complete _ h.owns⟩
  cases g with
  | held => exact hwf h
  | sized => exact ⟨hwf h.1,h.2⟩
  | free => exact ⟨hwf h.1,h.2.1,owns_complete _ h.2.2⟩
  | popped frame => exact hcarries h
  | aimed desc frame => exact ⟨hcarries h.1,h.2⟩
  | copied desc frame => exact ⟨hcarries h.toCarries,h.current,h.copied⟩
  | addressed desc frame => exact ⟨⟨hcarries h.1.toCarries,h.1.current,h.1.copied⟩,h.2⟩
  | sent => exact hwf h

end TxPart

end HeineOS.Rtl8139
