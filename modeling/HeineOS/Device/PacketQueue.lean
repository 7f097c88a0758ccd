import HeineOS.Lib.Ring

/-! The packet queues of the RTL8139 driver: 64 frames in a circular buffer. An index or a slice out of range is a
panic, and there is none. -/
namespace HeineOS.Rtl8139
open Lib

/-- `EthernetFrame`: an array of 2048 bytes, of which the first ones are used. -/
structure EthernetFrame where
  data : List UInt8
  length : Nat
  deriving DecidableEq

namespace EthernetFrame

def empty : EthernetFrame := ⟨List.replicate 2048 0,0⟩

def contents (f : EthernetFrame) : List UInt8 := f.data.take f.length

structure Wf (f : EthernetFrame) : Prop where
  data : f.data.length = 2048
  length : f.length ≤ 2048

end EthernetFrame

def queueCapacity : Nat := 64

/-- `dst[..n].copy_from_slice(src)`. -/
def copyFromSlice (dst : List UInt8) (n : Nat) (src : List UInt8) : Option (List UInt8) :=
  if n ≤ dst.length ∧ src.length = n then some (src ++ dst.drop n) else none

theorem copyFromSlice_eq {dst src : List UInt8} (h : src.length ≤ dst.length) :
    copyFromSlice dst src.length src = some (src ++ dst.drop src.length) := if_pos ⟨h,rfl⟩

theorem length_copied {dst src : List UInt8} (h : src.length ≤ dst.length) :
    (src ++ dst.drop src.length).length = dst.length := by
  rw [List.length_append,List.length_drop]
  omega

structure PacketQueue where
  buffer : List EthernetFrame
  head : Nat
  tail : Nat
  size : Nat
  droppedPackets : Nat

namespace PacketQueue

def new : PacketQueue := ⟨List.replicate queueCapacity .empty,0,0,0,0⟩

/-- `none` is a panic. -/
def push (q : PacketQueue) (packetData : List UInt8) : Option PacketQueue :=
  if q.size = queueCapacity then some { q with droppedPackets := q.droppedPackets + 1 }
  else if packetData.length > 2048 then some { q with droppedPackets := q.droppedPackets + 1 }
  else
    match q.buffer[q.head]? with
    | none => none
    | some frame =>
      match copyFromSlice frame.data packetData.length packetData with
      | none => none
      | some data =>
        some { q with
          buffer := q.buffer.set q.head ⟨data,packetData.length⟩
          head := (q.head + 1) % queueCapacity
          size := q.size + 1 }

def pop (q : PacketQueue) : Option (Option EthernetFrame × PacketQueue) :=
  if q.size = 0 then some (none,q)
  else
    match q.buffer[q.tail]? with
    | none => none
    | some frame => some (some frame,{ q with tail := (q.tail + 1) % queueCapacity, size := q.size - 1 })

structure Wf (q : PacketQueue) : Prop where
  buffer : q.buffer.length = queueCapacity
  size : q.size ≤ queueCapacity
  tail : q.tail < queueCapacity
  head : q.head = (q.tail + q.size) % queueCapacity
  frames : ∀ f ∈ q.buffer, f.Wf

/-- The packets in the queue, the oldest one first. -/
def contents (q : PacketQueue) : List (List UInt8) :=
  (Ring.window q.buffer q.tail q.size).map EthernetFrame.contents

theorem new_wf : new.Wf where
  buffer := List.length_replicate
  size := Nat.zero_le _
  tail := by decide
  head := rfl
  frames := by
    intro f hf
    rw [List.eq_of_mem_replicate hf]
    exact ⟨List.length_replicate,Nat.zero_le _⟩

variable {q : PacketQueue}

theorem Wf.length_contents (h : q.Wf) : q.contents.length = q.size := by
  have hb : 0 < q.buffer.length := by
    rw [h.buffer]
    decide
  rw [contents,List.length_map,Ring.length_window hb]

/-- A packet that fits is appended to a queue that is not full. -/
theorem Wf.push_fits (h : q.Wf) {packet : List UInt8} (hs : q.size < queueCapacity) (hp : packet.length ≤ 2048) :
    ∃ q', q.push packet = some q' ∧ q'.Wf ∧ q'.contents = q.contents ++ [packet] ∧ q'.size = q.size + 1 ∧
      q'.droppedPackets = q.droppedPackets := by
  have hhead : q.head < q.buffer.length := by
    rw [h.buffer,h.head]
    exact Nat.mod_lt _ (by decide)
  obtain ⟨frame,hcell⟩ : ∃ frame, q.buffer[q.head]? = some frame := ⟨_,List.getElem?_eq_getElem hhead⟩
  have hframe := h.frames frame (List.mem_of_getElem? hcell)
  have hcopy : packet.length ≤ frame.data.length := by
    rw [hframe.data]
    exact hp
  have hpush : q.push packet = some { q with
      buffer := q.buffer.set q.head ⟨packet ++ frame.data.drop packet.length,packet.length⟩
      head := (q.head + 1) % queueCapacity
      size := q.size + 1 } := by
    have hfull : ¬ q.size = queueCapacity := Nat.ne_of_lt hs
    have hlarge : ¬ packet.length > 2048 := Nat.not_lt.mpr hp
    rw [push,if_neg hfull,if_neg hlarge,hcell]
    simp only [copyFromSlice_eq hcopy]
  refine ⟨_,hpush,?_,?_,rfl,rfl⟩
  · constructor
    case buffer =>
      rw [List.length_set]
      exact h.buffer
    case size => exact hs
    case tail => exact h.tail
    case head =>
      change (q.head + 1) % queueCapacity = (q.tail + (q.size + 1)) % queueCapacity
      rw [h.head,Nat.mod_add_mod,Nat.add_assoc]
    case frames =>
      intro f hf
      rcases List.mem_or_eq_of_mem_set hf with hf | rfl
      · exact h.frames f hf
      · refine ⟨?_,hp⟩
        rw [length_copied hcopy]
        exact hframe.data
  · have hindex : q.head = (q.tail + q.size) % q.buffer.length := by
      rw [h.buffer]
      exact h.head
    have hroom : q.size < q.buffer.length := by
      rw [h.buffer]
      exact hs
    change (Ring.window (q.buffer.set q.head _) q.tail (q.size + 1)).map _ = _
    rw [hindex,Ring.window_push hroom,List.map_append]
    congr 1
    change [(packet ++ _).take packet.length] = _
    rw [List.take_left]

theorem Wf.dropped (h : q.Wf) (droppedPackets : Nat) : Wf { q with droppedPackets } :=
  ⟨h.buffer,h.size,h.tail,h.head,h.frames⟩

/-- Every other packet is counted as dropped. -/
theorem push_drops {packet : List UInt8} (hd : q.size = queueCapacity ∨ packet.length > 2048) :
    q.push packet = some { q with droppedPackets := q.droppedPackets + 1 } := by
  rw [push]
  rcases hd with hd | hd
  · rw [if_pos hd]
  · rw [if_pos hd,ite_self]

theorem pop_empty (hs : q.size = 0) : q.pop = some (none,q) := if_pos hs

/-- Only an empty queue has nothing to give. -/
theorem eq_of_pop {q' : PacketQueue} (h : q.pop = some (none,q')) : q' = q ∧ q.size = 0 := by
  rw [pop] at h
  split at h
  · rename_i hs
    cases h
    exact ⟨rfl,hs⟩
  · split at h <;> cases h

theorem Wf.pop_oldest (h : q.Wf) (hs : 0 < q.size) :
    ∃ f q', q.pop = some (some f,q') ∧ f.Wf ∧ q'.Wf ∧ q.contents = f.contents :: q'.contents ∧
      q'.size = q.size - 1 ∧ q'.droppedPackets = q.droppedPackets := by
  have htail : q.tail < q.buffer.length := by
    rw [h.buffer]
    exact h.tail
  have hne : ¬ q.size = 0 := Nat.ne_of_gt hs
  refine ⟨q.buffer[q.tail],{ q with tail := (q.tail + 1) % queueCapacity, size := q.size - 1 },?_,?_,?_,?_,rfl,rfl⟩
  · rw [pop,if_neg hne,List.getElem?_eq_getElem htail]
  · exact h.frames _ (List.getElem_mem htail)
  · constructor
    case buffer => exact h.buffer
    case size => exact Nat.le_trans (Nat.sub_le _ _) h.size
    case tail => exact Nat.mod_lt _ (by decide)
    case head =>
      change q.head = ((q.tail + 1) % queueCapacity + (q.size - 1)) % queueCapacity
      rw [h.head,Nat.mod_add_mod]
      congr 1
      omega
    case frames => exact h.frames
  · have hcell : q.buffer[q.tail % q.buffer.length]? = some q.buffer[q.tail] := by
      rw [Nat.mod_eq_of_lt htail,List.getElem?_eq_getElem htail]
    obtain ⟨n,hn⟩ := Nat.exists_eq_add_one_of_ne_zero hne
    rw [contents,hn,Ring.window_cons hcell,h.buffer,List.map_cons]
    rfl

end PacketQueue

end HeineOS.Rtl8139
