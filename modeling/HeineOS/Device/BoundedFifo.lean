import HeineOS.Device.PacketQueue
import Mathlib.Tactic.Ring

/-! The packet queue as a bounded list of packets with a count of those that were rejected, over all sequences of
calls. -/
namespace HeineOS.Rtl8139

inductive QueueCall where
  | push (packetData : List UInt8)
  | pop
  deriving DecidableEq

/-- What the queue is for: at most 64 packets of at most 2048 bytes, the oldest one first. -/
structure Fifo where
  packets : List (List UInt8)
  dropped : Nat
  deriving DecidableEq

namespace Fifo

def new : Fifo := ⟨[],0⟩

/-- The result of a `pop`, and the list behind the call. -/
def exec (s : Fifo) : QueueCall → Option (Option (List UInt8)) × Fifo
  | .push packetData =>
    if s.packets.length < 64 ∧ packetData.length ≤ 2048 then (none,{ s with packets := s.packets ++ [packetData] })
    else (none,{ s with dropped := s.dropped + 1 })
  | .pop =>
    match s.packets with
    | [] => (some none,s)
    | packet :: packets => (some (some packet),{ s with packets })

def run (s : Fifo) : List QueueCall → List (Option (Option (List UInt8))) × Fifo
  | [] => ([],s)
  | call :: calls =>
    let (result,s) := s.exec call
    let (results,s) := s.run calls
    (result :: results,s)

theorem dropped_le_exec (s : Fifo) (call : QueueCall) : s.dropped ≤ (s.exec call).2.dropped := by
  cases call with
  | push packetData =>
    rw [exec]
    split
    · exact le_rfl
    · exact Nat.le_succ _
  | pop =>
    rw [exec]
    split <;> exact le_rfl

theorem dropped_le_run (s : Fifo) (calls : List QueueCall) : s.dropped ≤ (s.run calls).2.dropped := by
  induction calls generalizing s with
  | nil => exact le_rfl
  | cons call calls ih => exact (s.dropped_le_exec call).trans (ih _)

/-- Packets that are too large are all rejected. -/
theorem dropped_run_large (s : Fifo) {packetData : List UInt8} (h : packetData.length > 2048) (n : Nat) :
    (s.run (List.replicate n (.push packetData))).2.dropped = s.dropped + n := by
  induction n generalizing s with
  | zero => rfl
  | succ n ih =>
    have hreject : ¬ (s.packets.length < 64 ∧ packetData.length ≤ 2048) := by omega
    have hexec : s.exec (.push packetData) = (none,{ s with dropped := s.dropped + 1 }) := if_neg hreject
    rw [List.replicate_succ]
    simp only [run, hexec, ih]
    omega

end Fifo

namespace PacketQueue

/-- `push`, with the check that the counter of dropped packets is a `usize`; the other sums stay below 65. -/
def checkedPush (q : PacketQueue) (packetData : List UInt8) : Option PacketQueue :=
  (q.push packetData).bind fun q' => if q'.droppedPackets < 2^64 then some q' else none

def exec (q : PacketQueue) : QueueCall → Option (Option (Option EthernetFrame) × PacketQueue)
  | .push packetData => (q.checkedPush packetData).map fun q => (none,q)
  | .pop => q.pop.map fun (frame,q) => (some frame,q)

def run (q : PacketQueue) : List QueueCall → Option (List (Option (Option EthernetFrame)) × PacketQueue)
  | [] => some ([],q)
  | call :: calls => do
    let (result,q) ← q.exec call
    let (results,q) ← q.run calls
    return (result :: results,q)

/-- The queue stands for the list, and its indices are in range. -/
structure Represents (q : PacketQueue) (s : Fifo) : Prop where
  wf : q.Wf
  packets : q.contents = s.packets
  dropped : q.droppedPackets = s.dropped

variable {q q' : PacketQueue} {s : Fifo}

theorem checkedPush_eq {packetData : List UInt8} (h : q.push packetData = some q') :
    q.checkedPush packetData = if q'.droppedPackets < 2^64 then some q' else none := by
  rw [checkedPush,h]
  rfl

theorem push_of_checkedPush {packetData : List UInt8} (h : q.checkedPush packetData = some q') :
    q.push packetData = some q' := by
  obtain ⟨pushed,hpush,hchecked⟩ := Option.bind_eq_some_iff.mp h
  split at hchecked
  · rw [hpush,hchecked]
  · exact nomatch hchecked

theorem new_represents : new.Represents .new := ⟨new_wf,rfl,rfl⟩

private theorem Represents.size (h : q.Represents s) : s.packets.length = q.size := by
  rw [← h.packets,h.wf.length_contents]

/-- One call does the same to the queue and to the list, unless the counter overflows. -/
private theorem exec_represents (h : q.Represents s) (hlt : s.dropped < 2^64) (call : QueueCall) :
    if (s.exec call).2.dropped < 2^64 then
      ∃ result q', q.exec call = some (result,q') ∧ q'.Represents (s.exec call).2 ∧
        result.map (Option.map EthernetFrame.contents) = (s.exec call).1
    else q.exec call = none := by
  cases call with
  | push packetData =>
    by_cases hfits : s.packets.length < 64 ∧ packetData.length ≤ 2048
    · have hexec : s.exec (.push packetData) = (none,{ s with packets := s.packets ++ [packetData] }) := if_pos hfits
      have hsize : q.size < queueCapacity := by
        rw [← h.size]
        exact hfits.1
      obtain ⟨q',hpush,hwf,hcontents,-,hdropped⟩ := h.wf.push_fits hsize hfits.2
      have hcount : q'.droppedPackets < 2^64 := by
        rw [hdropped,h.dropped]
        exact hlt
      rw [hexec,if_pos hlt]
      refine ⟨none,q',?_,⟨hwf,?_,hdropped.trans h.dropped⟩,rfl⟩
      · rw [exec,checkedPush_eq hpush,if_pos hcount]
        rfl
      · rw [hcontents,h.packets]
    · have hexec : s.exec (.push packetData) = (none,{ s with dropped := s.dropped + 1 }) := if_neg hfits
      have hfull : q.size = queueCapacity ∨ packetData.length > 2048 := by
        have hsize := h.wf.size
        rw [h.size] at hfits
        rw [queueCapacity] at hsize ⊢
        omega
      rw [hexec,exec,checkedPush_eq (push_drops hfull)]
      change if s.dropped + 1 < 2^64 then _ else _
      rw [← h.dropped]
      split_ifs with hcount
      · refine ⟨none,_,rfl,⟨?_,h.packets,?_⟩,rfl⟩
        · exact h.wf.dropped _
        · rfl
      · rfl
  | pop =>
    cases hpackets : s.packets with
    | nil =>
      have hexec : s.exec .pop = (some none,s) := by rw [Fifo.exec,hpackets]
      have hempty : q.size = 0 := by rw [← h.size,hpackets,List.length_nil]
      rw [hexec,if_pos hlt]
      refine ⟨some none,q,?_,h,rfl⟩
      rw [exec,pop_empty hempty]
      rfl
    | cons packet packets =>
      have hexec : s.exec .pop = (some (some packet),{ s with packets }) := by rw [Fifo.exec,hpackets]
      have hsome : 0 < q.size := by
        rw [← h.size,hpackets]
        exact Nat.succ_pos _
      obtain ⟨frame,q',hpop,-,hwf,hcontents,-,hdropped⟩ := h.wf.pop_oldest hsome
      rw [h.packets,hpackets] at hcontents
      injection hcontents with hframe hrest
      rw [hexec,if_pos hlt]
      refine ⟨some (some frame),q',?_,⟨hwf,hrest.symm,hdropped.trans h.dropped⟩,?_⟩
      · rw [exec,hpop]
        rfl
      · rw [hframe]
        rfl

/-- From queues that stand for a list, a run of calls does the same to both, unless the counter overflows. -/
private theorem run_represents (h : q.Represents s) (hlt : s.dropped < 2^64) (calls : List QueueCall) :
    if (s.run calls).2.dropped < 2^64 then
      ∃ results q', q.run calls = some (results,q') ∧ q'.Represents (s.run calls).2 ∧
        results.map (Option.map (Option.map EthernetFrame.contents)) = (s.run calls).1
    else q.run calls = none := by
  induction calls generalizing q s with
  | nil =>
    change if s.dropped < 2^64 then _ else _
    rw [if_pos hlt]
    exact ⟨[],q,rfl,h,rfl⟩
  | cons call calls ih =>
    have hstep := exec_represents h hlt call
    have hmono := (s.exec call).2.dropped_le_run calls
    change if ((s.exec call).2.run calls).2.dropped < 2^64 then _ else _
    by_cases hcount : (s.exec call).2.dropped < 2^64
    · rw [if_pos hcount] at hstep
      obtain ⟨result,q₁,hexec,hq₁,hresult⟩ := hstep
      have hrest := ih hq₁ hcount
      split_ifs at hrest ⊢ with hall
      · obtain ⟨results,q',hrun,hq',hresults⟩ := hrest
        refine ⟨result :: results,q',?_,hq',?_⟩
        · simp only [run, hexec, hrun, Option.bind_eq_bind, Option.bind_some, Option.pure_def]
        · rw [List.map_cons,hresult,hresults]
          rfl
      · simp only [run, hexec, hrest, Option.bind_eq_bind, Option.bind_some, Option.bind_none]
    · rw [if_neg hcount] at hstep
      rw [if_neg (by omega)]
      simp only [run, hstep, Option.bind_eq_bind, Option.bind_none]

/-- Every sequence of calls on a new queue gives what the list gives, with the indices in range, as long as fewer than
`2^64` packets were rejected; the next one overflows the counter. -/
theorem queue_is_bounded_fifo (calls : List QueueCall) :
    if (Fifo.new.run calls).2.dropped < 2^64 then
      ∃ results q, new.run calls = some (results,q) ∧
        results.map (Option.map (Option.map EthernetFrame.contents)) = (Fifo.new.run calls).1 ∧
        q.contents = (Fifo.new.run calls).2.packets ∧ q.droppedPackets = (Fifo.new.run calls).2.dropped ∧
        q.size = q.contents.length ∧ q.size ≤ 64 ∧ q.head < 64 ∧ q.tail < 64 ∧ q.head = (q.tail + q.size) % 64
    else new.run calls = none := by
  have hrun := run_represents new_represents (Nat.two_pow_pos 64) calls
  split_ifs at hrun ⊢ with hcount
  · obtain ⟨results,q,hrun,hq,hresults⟩ := hrun
    have hhead : q.head < 64 := by
      rw [hq.wf.head]
      exact Nat.mod_lt _ (by decide)
    exact ⟨results,q,hrun,hresults,hq.packets,hq.dropped,hq.wf.length_contents.symm,hq.wf.size,hhead,hq.wf.tail,
      hq.wf.head⟩
  · exact hrun

private theorem run_large {packetData : List UInt8} (h : packetData.length > 2048) {n : Nat} (hn : 2^64 ≤ n) :
    new.run (List.replicate n (.push packetData)) = none := by
  have hdropped := Fifo.dropped_run_large Fifo.new h n
  have hzero : Fifo.new.dropped = 0 := rfl
  have hrun := run_represents new_represents (Nat.two_pow_pos 64) (List.replicate n (.push packetData))
  rw [hdropped,hzero,Nat.zero_add,if_neg (Nat.not_lt.mpr hn)] at hrun
  exact hrun

/-- With `2^64` packets that are too large, the count is no longer that of the rejected packets. -/
theorem queue_counter_overflows : new.run (List.replicate (2^64) (.push (List.replicate 2049 0))) = none :=
  run_large (by rw [List.length_replicate]; decide) (Nat.le_refl _)

end PacketQueue

end HeineOS.Rtl8139
