import HeineOS.Device.BoundedFifo
import HeineOS.Device.Receive
import HeineOS.Library.Bitmap
import Mathlib.Tactic.IntervalCases

/-! The receive buffer: how far the card writes into it, and that the driver reads it safely whatever it contains. -/
namespace HeineOS.Rtl8139
open Lib Bitmap

/-- Where the card writes next, behind packets of these lengths. -/
def writeOffset (lengths : List Nat) : Nat := lengths.foldl nextOffset 0

/-- The card writes at this offset for one of the packets: the four bytes of a header, and behind it as many bytes as
the length says. -/
def Writes (lengths : List Nat) (offset : Nat) : Prop :=
  ∃ i length, lengths[i]? = some length ∧ writeOffset (lengths.take i) ≤ offset ∧
    offset < writeOffset (lengths.take i) + 4 + length

theorem writeOffset_bound (lengths : List Nat) : writeOffset lengths < 8192 ∧ writeOffset lengths % 4 = 0 := by
  rcases List.eq_nil_or_concat lengths with rfl | ⟨lengths,length,rfl⟩
  · exact ⟨by decide,rfl⟩
  · rw [List.concat_eq_append,writeOffset,List.foldl_append]
    exact ⟨nextOffset_lt _ _,nextOffset_aligned _ _⟩

theorem position_eq_writeOffset (ps : List Packet) : position ps = writeOffset (ps.map Packet.length) := by
  rw [position,writeOffset,List.foldl_map]
  rfl

/-- The bytes that the card of the driver writes are among these. -/
theorem writes_of_writing {ring : RxRing} {p : Packet} {n : Nat} (hn : n < p.bytes.length) :
    Writes ((ring.packets ++ [p]).map Packet.length) (position ring.packets + n) := by
  rw [p.length_bytes] at hn
  refine ⟨ring.packets.length,p.length,by simp,?_⟩
  rw [← List.map_take,List.take_left,← position_eq_writeOffset]
  omega

/-- The card stays within the receive buffer exactly when no packet of 1517 or 1518 bytes starts at the last aligned
offset of the ring. -/
theorem card_stays_in_buffer_iff {lengths : List Nat} (hmax : ∀ length ∈ lengths, length ≤ 1518) :
    (∀ offset, Writes lengths offset → offset < rxBufferSize) ↔
      ∀ i length, lengths[i]? = some length → ¬ (writeOffset (lengths.take i) = 8188 ∧ 1516 < length) := by
  constructor
  · intro hstays i length hlength hlast
    have hin := hstays (8188 + 4 + 1516) ⟨i,length,hlength,by omega,by omega⟩
    rw [rxBufferSize] at hin
    omega
  · intro hnot offset hwrites
    obtain ⟨i,length,hlength,hlow,hhigh⟩ := hwrites
    have hle := hmax length (List.mem_of_getElem? hlength)
    have hbound := writeOffset_bound (lengths.take i)
    have hlast := hnot i length hlength
    rw [rxBufferSize]
    omega

/-- Six packets lead to the offset before the last one, and the seventh one fits. -/
theorem card_stays_in_buffer_short : writeOffset [1518,1518,1518,1518,1518,560] = 8184 ∧
    ∀ offset, Writes [1518,1518,1518,1518,1518,560,1518] offset → offset < rxBufferSize := by
  have hmax : ∀ length ∈ [1518,1518,1518,1518,1518,560,1518], length ≤ 1518 := by decide
  refine ⟨by decide,(card_stays_in_buffer_iff hmax).mpr ?_⟩
  intro i length hlength hlast
  have hi : i < 7 := (List.getElem?_eq_some_iff.mp hlength).1
  interval_cases i <;> exact absurd hlast.1 (by decide)

/-- Six packets lead to the last offset, and the seventh one runs over the end of the buffer. -/
theorem card_overruns_buffer :
    ¬ ∀ offset, Writes [1518,1518,1518,1518,1518,564,1518] offset → offset < rxBufferSize := by
  intro hstays
  have hwrites : Writes [1518,1518,1518,1518,1518,564,1518] 9709 := ⟨6,1518,rfl,by decide,by decide⟩
  exact absurd (hstays 9709 hwrites) (by decide)

/-- `buffer[dataStart..dataEnd]`; `none` when it is out of range. -/
def slice (buffer : List UInt8) (dataStart dataEnd : Nat) : Option (List UInt8) :=
  if dataStart ≤ dataEnd ∧ dataEnd ≤ buffer.length then
    some ((buffer.drop dataStart).take (dataEnd - dataStart))
  else none

/-- The header at an offset, a byte at a time. -/
def readHeader (buffer : List UInt8) (offset : Nat) : Option Nat := do
  let b₀ ← buffer[offset]?
  let b₁ ← buffer[← checkedUsize (offset + 1)]?
  let b₂ ← buffer[← checkedUsize (offset + 2)]?
  let b₃ ← buffer[← checkedUsize (offset + 3)]?
  return fromLe [b₀,b₁,b₂,b₃]

/-- One round of the loop of `process_rx_buffer` over these contents of the buffer, with the word for CAPR. An index or
a slice out of range and a sum that overflows are a panic. -/
def receiveRound (buffer : List UInt8) (rx : RxState) : Option (RxState × BitVec 16) := do
  let offset := rx.rxReadOffset
  let header ← readHeader buffer offset
  let length := header >>> 16
  let rxQueue ←
    if header.testBit 0 then do
      let packetLen := length - 4
      let dataStart ← checkedUsize (offset + 4)
      let dataEnd ← checkedUsize (dataStart + packetLen)
      if dataEnd ≤ buffer.length then do
        let packetData ← slice buffer dataStart dataEnd
        rx.rxQueue.checkedPush packetData
      else pure rx.rxQueue
    else pure rx.rxQueue
  let rxReadOffset := (← checkedUsize (offset + 4 + length + 3)) / 4 * 4 % 8192
  return (⟨rxQueue,rxReadOffset⟩,BitVec.ofNat 16 rxReadOffset - 16)

/-- The rounds while the card has packets. It may change the buffer from one to the next. -/
def receiveRounds (rx : RxState) : List (List UInt8) → Option (RxState × List (BitVec 16))
  | [] => some (rx,[])
  | buffer :: buffers => do
    let (rx,capr) ← receiveRound buffer rx
    let (rx,caprs) ← receiveRounds rx buffers
    return (rx,capr :: caprs)

/-- The packet that a round hands to the queue: none without ROK or when it would end behind the buffer. -/
def received (buffer : List UInt8) (offset : Nat) : Option (List UInt8) :=
  let header := unsignedAt buffer offset 4
  let packetLen := header >>> 16 - 4
  if header.testBit 0 ∧ offset + 4 + packetLen ≤ buffer.length then some ((buffer.drop (offset + 4)).take packetLen)
  else none

/-- The read offset is an aligned offset of the ring, and the queue is as its calls leave it. -/
structure RxState.Safe (rx : RxState) : Prop where
  queue : rx.rxQueue.Wf
  dropped : rx.rxQueue.droppedPackets < 2^64
  offset : rx.rxReadOffset < 8192
  aligned : rx.rxReadOffset % 4 = 0

/-- What a round does to the queue. -/
inductive RoundEffect (buffer : List UInt8) (rx rx' : RxState) : Prop where
  | appended {packet : List UInt8} (h : received buffer rx.rxReadOffset = some packet) (hcopied : packet.length ≤ 2048)
      (hcontents : rx'.rxQueue.contents = rx.rxQueue.contents ++ [packet])
      (hdropped : rx'.rxQueue.droppedPackets = rx.rxQueue.droppedPackets)
  | dropped {packet : List UInt8} (h : received buffer rx.rxReadOffset = some packet)
      (hrejected : rx.rxQueue.size = queueCapacity ∨ packet.length > 2048)
      (hqueue : rx'.rxQueue = { rx.rxQueue with droppedPackets := rx.rxQueue.droppedPackets + 1 })
  | unchanged (h : received buffer rx.rxReadOffset = none) (hqueue : rx'.rxQueue = rx.rxQueue)

/-- What is read lies in the buffer, and the round ends in a state that is safe again. The exception is a packet that is
to be dropped when the counter has reached its limit. -/
structure RoundSafe (buffer : List UInt8) (rx : RxState) : Prop where
  safe : rx.Safe
  header : rx.rxReadOffset + 4 ≤ buffer.length
  payload : ∀ packet, received buffer rx.rxReadOffset = some packet →
    rx.rxReadOffset + 4 + packet.length ≤ buffer.length
  round : (∃ rx' capr, receiveRound buffer rx = some (rx',capr) ∧ rx'.Safe ∧ RoundEffect buffer rx rx') ∨
    receiveRound buffer rx = none ∧ rx.rxQueue.droppedPackets = 2^64 - 1 ∧
      ∃ packet, received buffer rx.rxReadOffset = some packet ∧
        (rx.rxQueue.size = queueCapacity ∨ packet.length > 2048)

variable {buffer : List UInt8} {rx : RxState}

private theorem four_bytes {bytes : List UInt8} (h : 4 ≤ bytes.length) :
    ∃ b₀ b₁ b₂ b₃ rest, bytes = b₀ :: b₁ :: b₂ :: b₃ :: rest := by
  obtain ⟨b₀,b₁,b₂,b₃,hfour⟩ := List.length_eq_four.mp (List.length_take_of_le h)
  refine ⟨b₀,b₁,b₂,b₃,bytes.drop 4,?_⟩
  conv_lhs => rw [← List.take_append_drop 4 bytes,hfour]
  rfl

theorem readHeader_eq {offset : Nat} (hoffset : offset < 8192) (hbuffer : buffer.length = rxBufferSize) :
    readHeader buffer offset = some (unsignedAt buffer offset 4) := by
  rw [rxBufferSize] at hbuffer
  have hsum {n : Nat} (hn : n < 8) : checkedUsize (offset + n) = some (offset + n) := if_pos (by omega)
  obtain ⟨b₀,b₁,b₂,b₃,rest,hdrop⟩ := @four_bytes (buffer.drop offset) (by rw [List.length_drop]; omega)
  have hcell (n : Nat) : buffer[offset + n]? = (b₀ :: b₁ :: b₂ :: b₃ :: rest)[n]? := by
    rw [← hdrop,List.getElem?_drop]
  have hfirst := hcell 0
  rw [Nat.add_zero] at hfirst
  rw [unsignedAt,hdrop]
  simp only [readHeader, hfirst, hcell 1, hcell 2, hcell 3, hsum, Nat.reduceLT, Option.bind_eq_bind, Option.bind_some,
    List.getElem?_cons_zero, List.getElem?_cons_succ, Option.pure_def, List.take_succ_cons, List.take_zero]

/-- A round hands its packet to the queue and goes to the next one. -/
theorem receiveRound_eq (hrx : rx.Safe) (hbuffer : buffer.length = rxBufferSize) :
    receiveRound buffer rx =
      ((received buffer rx.rxReadOffset).elim (some rx.rxQueue) rx.rxQueue.checkedPush).map fun rxQueue =>
        (⟨rxQueue,nextOffset rx.rxReadOffset (unsignedAt buffer rx.rxReadOffset 4 >>> 16)⟩,
          BitVec.ofNat 16 (nextOffset rx.rxReadOffset (unsignedAt buffer rx.rxReadOffset 4 >>> 16)) - 16) := by
  have hoffset := hrx.offset
  have hheader := readHeader_eq hoffset hbuffer
  have hlength : unsignedAt buffer rx.rxReadOffset 4 >>> 16 < 2^16 := by
    have hlt := unsignedAt_lt buffer rx.rxReadOffset 4
    rw [Nat.shiftRight_eq_div_pow]
    omega
  rw [receiveRound,received,hheader]
  simp only [Option.bind_eq_bind, Option.bind_some, Option.pure_def]
  generalize unsignedAt buffer rx.rxReadOffset 4 = header at hlength ⊢
  have hstart : checkedUsize (rx.rxReadOffset + 4) = some (rx.rxReadOffset + 4) := if_pos (by omega)
  have hend : checkedUsize (rx.rxReadOffset + 4 + (header >>> 16 - 4)) =
      some (rx.rxReadOffset + 4 + (header >>> 16 - 4)) := if_pos (by omega)
  have hnext : checkedUsize (rx.rxReadOffset + 4 + header >>> 16 + 3) =
      some (rx.rxReadOffset + 4 + header >>> 16 + 3) := if_pos (by omega)
  simp only [hstart, hend, hnext, Option.bind_some]
  by_cases hok : header.testBit 0
  · by_cases hfits : rx.rxReadOffset + 4 + (header >>> 16 - 4) ≤ buffer.length
    · have hslice : slice buffer (rx.rxReadOffset + 4) (rx.rxReadOffset + 4 + (header >>> 16 - 4)) =
          some ((buffer.drop (rx.rxReadOffset + 4)).take (header >>> 16 - 4)) := by
        rw [slice,if_pos ⟨Nat.le_add_right _ _,hfits⟩,Nat.add_sub_cancel_left]
      rw [if_pos hok,if_pos hfits,if_pos ⟨hok,hfits⟩,hslice]
      simp only [Option.bind_some, Option.elim_some]
      rw [Option.map_eq_bind]
      rfl
    · rw [if_pos hok,if_neg hfits,if_neg (by simp [hfits])]
      rfl
  · rw [if_neg hok,if_neg (by simp [hok])]
    rfl

/-- The operations up to the next call, with nothing in between. -/
def Shared.runAlone (c : Ctx) (choice : Act) (s : Shared) : Code Unit → Option Shared
  | .pure _ | .call _ _ => some s
  | .op i k => (s.run c choice i).bind fun (r,s) => s.runAlone c choice (k r)

/-- The bytes of the receive buffer. -/
def RxRing.contents (ring : RxRing) : List UInt8 := (List.range rxBufferSize).map ring.memory

theorem RxRing.length_contents (ring : RxRing) : ring.contents.length = rxBufferSize := by
  rw [contents,List.length_map,List.length_range]

private theorem RxRing.contents_slice {ring : RxRing} {a n : Nat} (h : a + n ≤ rxBufferSize) :
    (ring.contents.drop a).take n = (List.range n).map fun i => ring.memory (a + i) := by
  apply List.ext_getElem?
  intro i
  by_cases hi : i < n
  · rw [List.getElem?_take_of_lt hi,List.getElem?_drop,contents,List.getElem?_map,List.getElem?_map,
      List.getElem?_range (by omega),List.getElem?_range hi]
    rfl
  · rw [List.getElem?_take_eq_none (by omega),List.getElem?_eq_none (by rw [List.length_map,List.length_range]; omega)]

private theorem load_eq_fromLe (m : Bytes) (a n : Nat) : m.load a n = fromLe ((List.range n).map fun i => m (a + i)) := by
  induction n generalizing a with
  | zero => rfl
  | succ n ih =>
    have hshift : (fun i => m (a + i)) ∘ Nat.succ = fun i => m (a + 1 + i) := by
      funext i
      exact congrArg m (Nat.add_right_comm a i 1)
    rw [Bytes.load,ih,List.range_succ_eq_map,List.map_cons,List.map_map,hshift]
    rfl

private theorem load_eq_unsignedAt {ring : RxRing} {offset n : Nat} (h : offset + n ≤ rxBufferSize) :
    ring.memory.load offset n = unsignedAt ring.contents offset n := by
  rw [unsignedAt,RxRing.contents_slice h,load_eq_fromLe]

private theorem header_fields {header : Nat} (h : header < 2^32) :
    (BitVec.ofNat 32 header).getLsbD 0 = header.testBit 0 ∧ (BitVec.ofNat 32 header >>> 16).toNat = header >>> 16 := by
  constructor
  · rw [BitVec.getLsbD_ofNat]
    rfl
  · rw [BitVec.toNat_ushiftRight,BitVec.toNat_ofNat,Nat.mod_eq_of_lt h]

/-- What is left of a round when the packet is taken. -/
private theorem runAlone_advance (s : Shared) (c : Ctx) (choice : Act) (offset : Nat) :
    s.runAlone c choice (.op (.setRxReadOffset offset) fun _ =>
      .op (.writeCapr (BitVec.ofNat 16 offset - 16)) fun _ => call .rxLoop) =
    some { s with
      rx := ⟨s.rx.rxQueue,offset⟩
      ring := s.ring.release (decodeCapr (BitVec.ofNat 16 offset - 16)) } := rfl

/-- The round of the program, run by itself, does what `receiveRound` does with the bytes in the memory of the card. -/
theorem rxRound_eq_receiveRound {s : Shared} (hrx : s.rx.Safe) (hmore : s.ring.bufferEmpty = false) {rx' : RxState}
    {capr : BitVec 16} (h : receiveRound s.ring.contents s.rx = some (rx',capr)) (c : Ctx) (choice : Act) :
    ∃ s', s.runAlone c choice rxRound = some s' ∧ s'.rx = rx' ∧ s'.ring = s.ring.release (decodeCapr capr) := by
  have hoffset : s.rx.rxReadOffset + 4 ≤ rxBufferSize := by
    have hlt := hrx.offset
    rw [rxBufferSize]
    omega
  have hempty : s.run c choice .rxBufferEmpty = some (false,s) := by rw [Shared.run,hmore]
  have hread : s.run c choice .rxReadOffset = some (s.rx.rxReadOffset,s) := rfl
  have hheader : s.run c choice (.readHeader s.rx.rxReadOffset) =
      some (some (BitVec.ofNat 32 (unsignedAt s.ring.contents s.rx.rxReadOffset 4)),s) := by
    rw [Shared.run,if_pos (by omega),load_eq_unsignedAt hoffset]
  obtain ⟨hrok,hlength⟩ := header_fields (unsignedAt_lt s.ring.contents s.rx.rxReadOffset 4)
  rw [receiveRound_eq hrx s.ring.length_contents,received,s.ring.length_contents] at h
  rw [rxRound]
  simp only [perform, Program.perform_bind, Shared.runAlone, hempty, Option.bind_some, Bool.false_eq_true, if_false,
    hread, hheader, hrok]
  generalize unsignedAt s.ring.contents s.rx.rxReadOffset 4 = header at h hlength ⊢
  rw [hlength]
  by_cases hok : header.testBit 0
  · by_cases hfits : s.rx.rxReadOffset + 4 + (header >>> 16 - 4) ≤ rxBufferSize
    · rw [if_pos ⟨hok,hfits⟩,RxRing.contents_slice hfits,Option.elim_some] at h
      rw [if_pos hok,if_pos hfits]
      obtain ⟨rxQueue,hchecked,hstate⟩ := Option.map_eq_some_iff.mp h
      obtain ⟨hstate,hcapr⟩ := Prod.mk.injEq .. ▸ hstate
      have hpush := PacketQueue.push_of_checkedPush hchecked
      have hrun : s.run c choice (.rxPush (s.rx.rxReadOffset + 4) (s.rx.rxReadOffset + 4 + (header >>> 16 - 4))) =
          some (true,{ s with
            rx := { s.rx with rxQueue }
            history := { s.history with taken := s.history.taken ++
              [(List.range (header >>> 16 - 4)).map fun i => s.ring.memory (s.rx.rxReadOffset + 4 + i)] } }) := by
        rw [Shared.run,Shared.rxSlice,if_pos ⟨Nat.le_add_right _ _,hfits⟩,Nat.add_sub_cancel_left]
        simp only [hpush]
      rw [Shared.runAlone,hrun,Option.bind_some]
      refine ⟨_,runAlone_advance _ c choice _,hstate,?_⟩
      rw [← hcapr]
    · rw [if_neg (by simp [hfits])] at h
      rw [if_pos hok,if_neg hfits,runAlone_advance]
      injection h with h
      injection h with hstate hcapr
      exact ⟨_,rfl,hstate,by rw [← hcapr]⟩
  · rw [if_neg (by simp [hok])] at h
    rw [if_neg hok,runAlone_advance]
    injection h with h
    injection h with hstate hcapr
    exact ⟨_,rfl,hstate,by rw [← hcapr]⟩

private theorem received_payload {offset : Nat} {packet : List UInt8} (h : received buffer offset = some packet) :
    offset + 4 + packet.length ≤ buffer.length := by
  rw [received] at h
  split at h
  · rename_i hfits
    have hlen := List.length_take_le (unsignedAt buffer offset 4 >>> 16 - 4) (buffer.drop (offset + 4))
    rw [← Option.some.inj h]
    omega
  · exact nomatch h

/-- One round from a safe state. -/
private theorem receiveRound_safe (hrx : rx.Safe) (hbuffer : buffer.length = rxBufferSize) : RoundSafe buffer rx := by
  have hround := receiveRound_eq hrx hbuffer
  have hnext {rxQueue : PacketQueue} (hqueue : rxQueue.Wf) (hcount : rxQueue.droppedPackets < 2^64) (length : Nat) :
      RxState.Safe ⟨rxQueue,nextOffset rx.rxReadOffset length⟩ :=
    ⟨hqueue,hcount,nextOffset_lt _ _,nextOffset_aligned _ _⟩
  refine ⟨hrx,?_,fun packet hpacket => received_payload hpacket,?_⟩
  · have hoffset := hrx.offset
    rw [hbuffer,rxBufferSize]
    omega
  · cases hpacket : received buffer rx.rxReadOffset with
    | none =>
      rw [hpacket] at hround
      exact .inl ⟨_,_,hround,hnext hrx.queue hrx.dropped _,.unchanged hpacket rfl⟩
    | some packet =>
      rw [hpacket,Option.elim_some] at hround
      by_cases hrejected : rx.rxQueue.size = queueCapacity ∨ packet.length > 2048
      · rw [PacketQueue.checkedPush_eq (PacketQueue.push_drops hrejected)] at hround
        by_cases hcount : rx.rxQueue.droppedPackets + 1 < 2^64
        · rw [if_pos hcount] at hround
          have hwf := hrx.queue.dropped (rx.rxQueue.droppedPackets + 1)
          exact .inl ⟨_,_,hround,hnext hwf hcount _,.dropped hpacket hrejected rfl⟩
        · rw [if_neg hcount] at hround
          have hlimit := hrx.dropped
          exact .inr ⟨hround,by omega,packet,rfl,hrejected⟩
      · rw [not_or,Nat.not_lt] at hrejected
        have hroom : rx.rxQueue.size < queueCapacity := Nat.lt_of_le_of_ne hrx.queue.size hrejected.1
        obtain ⟨rxQueue,hpush,hwf,hcontents,-,hdropped⟩ := hrx.queue.push_fits hroom hrejected.2
        have hcount : rxQueue.droppedPackets < 2^64 := by
          rw [hdropped]
          exact hrx.dropped
        rw [PacketQueue.checkedPush_eq hpush,if_pos hcount] at hround
        exact .inl ⟨_,_,hround,hnext hwf hcount _,.appended hpacket hrejected.2 hcontents hdropped⟩

private theorem RoundEffect.dropped_le {rx' : RxState} (h : RoundEffect buffer rx rx') :
    rx'.rxQueue.droppedPackets ≤ rx.rxQueue.droppedPackets + 1 := by
  cases h with
  | appended _ _ _ hdropped => omega
  | dropped _ _ hqueue => rw [hqueue]
  | unchanged _ hqueue =>
    rw [hqueue]
    exact Nat.le_succ _

/-- Enough room in the counter for every round, and all of them end. -/
private theorem receiveRounds_ends {buffers : List (List UInt8)} (hrx : rx.Safe)
    (hbuffers : ∀ buffer ∈ buffers, buffer.length = rxBufferSize)
    (hroom : rx.rxQueue.droppedPackets + buffers.length < 2^64) : (receiveRounds rx buffers).isSome := by
  induction buffers generalizing rx with
  | nil => rfl
  | cons buffer buffers ih =>
    rw [List.forall_mem_cons] at hbuffers
    rw [List.length_cons] at hroom
    rcases (receiveRound_safe hrx hbuffers.1).round with ⟨rx',capr,hround,hsafe,heffect⟩ | ⟨_,hlimit,_⟩
    · have hle := heffect.dropped_le
      obtain ⟨result,hresult⟩ := Option.isSome_iff_exists.mp (ih hsafe hbuffers.2 (by omega))
      simp only [receiveRounds, hround, hresult, Option.bind_eq_bind, Option.bind_some, Option.pure_def,
        Option.isSome_some]
    · omega

private theorem receiveRounds_safe {buffers : List (List UInt8)} (hrx : rx.Safe)
    (hbuffers : ∀ buffer ∈ buffers, buffer.length = rxBufferSize) {rx' : RxState} {caprs : List (BitVec 16)}
    (h : receiveRounds rx buffers = some (rx',caprs)) : rx'.Safe := by
  induction buffers generalizing rx caprs with
  | nil =>
    rw [receiveRounds,Option.some.injEq,Prod.mk.injEq] at h
    rw [← h.1]
    exact hrx
  | cons buffer buffers ih =>
    rw [List.forall_mem_cons] at hbuffers
    rw [receiveRounds,Option.bind_eq_bind,Option.bind_eq_some_iff] at h
    obtain ⟨⟨rx₁,capr⟩,hround,hrest⟩ := h
    rw [Option.bind_eq_bind,Option.bind_eq_some_iff] at hrest
    obtain ⟨⟨rx₂,caprs'⟩,hrest,hpure⟩ := hrest
    rw [Option.pure_def,Option.some.injEq,Prod.mk.injEq] at hpure
    rw [hpure.1] at hrest
    rcases (receiveRound_safe hrx hbuffers.1).round with ⟨_,_,hround',hsafe,_⟩ | ⟨hnone,_⟩
    · rw [hround,Option.some.injEq,Prod.mk.injEq] at hround'
      rw [← hround'.1] at hsafe
      exact ih hsafe hbuffers.2 hrest
    · rw [hround] at hnone
      exact nomatch hnone

/-- Whatever the buffer contains in each round, every round of the loop is safe, and the loop ends as long as the
counter of dropped packets has room. -/
theorem receive_processing_safe {buffers : List (List UInt8)} (hrx : rx.Safe)
    (hbuffers : ∀ buffer ∈ buffers, buffer.length = rxBufferSize) :
    (rx.rxQueue.droppedPackets + buffers.length < 2^64 → (receiveRounds rx buffers).isSome) ∧
    (∀ rx' caprs, receiveRounds rx buffers = some (rx',caprs) → rx'.Safe) ∧
    ∀ before buffer after, buffers = before ++ buffer :: after →
      ∀ rx' caprs, receiveRounds rx before = some (rx',caprs) → RoundSafe buffer rx' := by
  refine ⟨receiveRounds_ends hrx hbuffers,fun _ _ => receiveRounds_safe hrx hbuffers,?_⟩
  intro before buffer after hsplit rx' caprs hrun
  rw [hsplit,List.forall_mem_append,List.forall_mem_cons] at hbuffers
  exact receiveRound_safe (receiveRounds_safe hrx hbuffers.1 hrun) hbuffers.2.1

theorem safe_new : RxState.Safe ⟨.new,0⟩ := ⟨PacketQueue.new_wf,by decide,by decide,rfl⟩

/-- A good packet of two bytes at the start of the buffer, the header of one that would end behind the buffer at offset
12, and a packet of 2050 bytes at offset 16. -/
def threePackets : List UInt8 :=
  [1,0,6,0,7,9,0,0,0,0,0,0,1,0,0xff,0xff,1,0,0x06,0x08] ++ List.replicate 9688 0

/-- The first packet is queued, the second one is left out, and the third one is dropped. -/
theorem receive_processing_safe_sample : ∃ rx caprs,
    receiveRounds ⟨.new,0⟩ [threePackets,threePackets,threePackets] = some (rx,caprs) ∧ rx.Safe ∧
      rx.rxQueue.contents = [[7,9]] ∧ rx.rxQueue.droppedPackets = 1 ∧ rx.rxReadOffset = 2076 ∧
      ∃ rx' caprs', receiveRounds ⟨.new,0⟩ [threePackets,threePackets] = some (rx',caprs') ∧
        RoundSafe threePackets rx' := by
  have hlength : threePackets.length = rxBufferSize := by decide +kernel
  have hbuffers : ∀ buffer ∈ [threePackets,threePackets,threePackets], buffer.length = rxBufferSize := by
    simp [hlength]
  have hrun : (receiveRounds ⟨.new,0⟩ [threePackets,threePackets,threePackets]).any (fun p =>
      p.1.rxQueue.contents == [[7,9]] && p.1.rxQueue.droppedPackets == 1 && p.1.rxReadOffset == 2076) = true := by
    decide +kernel
  have hbefore : (receiveRounds ⟨.new,0⟩ [threePackets,threePackets]).isSome = true := by decide +kernel
  obtain ⟨-,hsafe,hrounds⟩ := receive_processing_safe safe_new hbuffers
  obtain ⟨⟨rx,caprs⟩,hrx,hgoal⟩ := (Option.any_eq_true _ _).mp hrun
  simp only [Bool.and_eq_true, beq_iff_eq] at hgoal
  obtain ⟨⟨hcontents,hdropped⟩,hoffset⟩ := hgoal
  obtain ⟨⟨rx',caprs'⟩,hrx'⟩ := Option.isSome_iff_exists.mp hbefore
  exact ⟨rx,caprs,hrx,hsafe rx caprs hrx,hcontents,hdropped,hoffset,rx',caprs',hrx',
    hrounds [threePackets,threePackets] threePackets [] rfl rx' caprs' hrx'⟩

/-- A full queue whose counter has reached its limit. -/
def fullState : RxState := ⟨{ PacketQueue.new with size := 64, droppedPackets := 2^64 - 1 },0⟩

/-- An empty packet with ROK at the start of the buffer. -/
def emptyPacket : List UInt8 := 1 :: List.replicate 9707 0

/-- The next packet that is dropped overflows the counter. -/
theorem receive_counter_overflows : fullState.Safe ∧ emptyPacket.length = rxBufferSize ∧
    receiveRound emptyPacket fullState = none := by
  have hsafe : fullState.Safe :=
    ⟨⟨PacketQueue.new_wf.buffer,by decide,by decide,rfl,PacketQueue.new_wf.frames⟩,by decide,by decide,rfl⟩
  have hlength : emptyPacket.length = rxBufferSize := by
    rw [emptyPacket,List.length_cons,List.length_replicate]
    rfl
  have hheader : unsignedAt emptyPacket 0 4 = 1 := rfl
  have hreceived : received emptyPacket fullState.rxReadOffset = some [] := by
    change received emptyPacket 0 = _
    rw [received,hheader,hlength]
    rfl
  refine ⟨hsafe,hlength,?_⟩
  rw [receiveRound_eq hsafe hlength,hreceived]
  rfl

end HeineOS.Rtl8139
