import HeineOS.Kernel.HandOff

/-! Interrupt handlers wait for the vectors, the keyboard, COM1 and the allocator. The first two are
always free, the other two may be held by the code that was interrupted. -/
namespace HeineOS.Kernel
open Lib Scheduler Protocol

/-- The running frame is a handler that waits for a taken lock. -/
def Machine.handlerBlocked (m : Machine) : Bool :=
  match m.stack m.cur with
  | ⟨.op (.lock l) _,o⟩ :: _ => o.handler && m.locked l
  | _ => false

namespace Machine
variable {m : Machine}

theorem handlerBlocked_next (h : m.handlerBlocked = true) :
    ∃ l o, m.Next (.lock l) o ∧ o.handler = true ∧ m.locked l = true := by
  unfold handlerBlocked at h
  split at h
  · rename_i l k o fs hs
    obtain ⟨hh,hl⟩ := Bool.and_eq_true_iff.mp h
    exact ⟨l,o,⟨k,fs,hs⟩,hh,hl⟩
  · cases h

/-- A handler that knows a lock to be free finds it so. -/
theorem Inv.free_of_findsFree {mode : Mode} {φ : Phase} {f : Frame} {fs : List Frame} {g : Local} {l : Lock}
    (h : m.Inv mode φ f fs g) (hm : mode.guarded = true) (hh : g.own.handler = true) (hf : g.FindsFree mode l) :
    m.locked l = false := by
  obtain ⟨hie,hfree,hholds⟩ := hf hm hh
  cases hl : m.locked l with
  | false => rfl
  | true =>
    rw [h.knows.free hie l hfree hl] at hholds
    cases hholds

end Machine

/-- As long as no interrupt comes that needs COM1 or the allocator while it is taken, no handler
ever waits for a lock. -/
theorem handlers_never_block {m : Machine}
    (hr : (Machine.system.restrict fun m label => m.handlerFree label = true).Reachable m) :
    m.handlerBlocked = false := by
  obtain ⟨φ,f,fs,g,h⟩ : m.Ok ⟨true,false⟩ :=
    Machine.Ok.of_restricted (fun _ _ hc => ⟨fun _ => hc,nofun⟩) hr
  cases hb : m.handlerBlocked with
  | false => rfl
  | true =>
    obtain ⟨l,o,hn,hh,hl⟩ := Machine.handlerBlocked_next hb
    obtain ⟨_,hg,ha⟩ := h.next hn
    rw [h.free_of_findsFree rfl (hg ▸ hh) ha.2] at hl
    cases hl

/-- A thread is interrupted by the network card, which has received a packet that is too large. -/
def warningRun (act : Act) : List Label := Machine.script
  [(.run,0),(.act .schedule,9),(.act act,2),(.interrupt (.rtl8139 true false [⟨true,3000⟩]),4)]

/-- The handler is about to log. -/
def Machine.handlerLogs (m : Machine) : Bool :=
  match m.stack m.cur with
  | ⟨.op (.lock .com1) _,o⟩ :: _ => o.handler
  | _ => false

/-- The thread holds the lock of the terminal. -/
theorem handlers_never_block_sample :
    ∃ m, (Machine.system.restrict fun m label => m.handlerFree label = true).Reachable m ∧
      m.handlerLogs = true ∧ m.handlerBlocked = false := by
  have hrun : ((Machine.start ⟨0⟩ (fun _ => true) 0 ⟨0,0⟩).execAll Machine.handlerFree
      (warningRun (.acquire .terminal))).any Machine.handlerLogs = true := by decide +kernel
  obtain ⟨m,hm,hl⟩ := Machine.reachable_of_execAll hrun
  exact ⟨m,hm,hl,handlers_never_block hm⟩

/-- The thread is itself writing to the log. -/
theorem handlers_never_block_fails : ¬ ∀ m, Machine.system.Reachable m → m.handlerBlocked = false := by
  intro hall
  have hrun : ((Machine.start ⟨0⟩ (fun _ => true) 0 ⟨0,0⟩).execAll (fun _ _ => true)
      (warningRun (.acquire .com1))).any Machine.handlerBlocked = true := by decide +kernel
  obtain ⟨m,hm,hb⟩ := Machine.reachable_of_execAll hrun
  rw [hall m hm.of_restrict] at hb
  cases hb

end HeineOS.Kernel
