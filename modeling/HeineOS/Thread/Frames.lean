import HeineOS.Thread.Transparency

/-! What a switch leaves alone besides the frames it saves and restores: the stack of the old thread above the
call, the stack of the new one above its frame, and the memory that no thread owns. -/
namespace HeineOS.Switch
open Lib

variable {T : Type} {L : Layout T} {s : Cpu}

/-- Bytes that a switch from `c` to `n` may write. -/
def Written (L : Layout T) (c n : T) (s : Cpu) (a : Nat) : Prop :=
  (L.kernelStack c ≤ a ∧ a < (s.regs .rsp).toNat) ∨
    (L.kernelStack n ≤ a ∧ a < s.mem.load (L.stackPtr n).toNat 8) ∨
    ((L.stackPtr c).toNat ≤ a ∧ a < (L.stackPtr c).toNat + 8) ∨
    ((L.tss + 4).toNat ≤ a ∧ a < (L.tss + 4).toNat + 8)

private theorem switch_mem_eq (s : Cpu) (tss back back' back'' : BitVec 64) (unlockScheduler : Cpu → Cpu) :
    ((s.push back).exec (threadSwitch tss back' back'' unlockScheduler)).mem =
      (unlockScheduler (((((s.push back).exec (restoreOrder.reverse.map .push)).step .pushfq).exec
        (leave tss back')).push back'')).mem := rfl

private theorem leave_stores (s : Cpu) (tss back : BitVec 64) :
    (s.exec (leave tss back)).mem =
      ((s.mem.store (s.regs .rdi).toNat 8 (s.regs .rsp).toNat).store (s.regs .rsp - 8).toNat 8 back.toNat).store
        (tss + 4).toNat 8 (s.regs .rdx).toNat := by
  have hrdi : s.regs .rdi + 0 = s.regs .rdi := BitVec.add_zero _
  rw [← hrdi]
  rfl

section
variable {c n : T} {unlockScheduler : Cpu → Cpu} {k : Context}

/-- The memory before `unlock_scheduler` runs on the new stack. -/
private theorem before_unlock (unlockScheduler : Cpu → Cpu) (hk : Holds L n s.mem k) (hcall : CallsSwitch L c n s)
    (back back' back'' : BitVec 64) :
    ∃ s', ((s.push back).exec (threadSwitch L.tss back' back'' unlockScheduler)).mem = (unlockScheduler s').mem ∧
      (s'.regs .rsp).toNat + 8 = s.mem.load (L.stackPtr n).toNat 8 ∧
      (∀ a, ¬ Written L c n s a → s'.mem a = s.mem a) ∧
      s'.mem.load (L.tss + 4).toNat 8 = L.getTopOfStack n := by
  have hlow := hcall.low
  obtain ⟨vs,hvs,hs⟩ := pushed_frame back (show 8 * 17 ≤ (s.regs .rsp).toNat by omega)
  rw [switch_mem_eq]
  generalize ((s.push back).exec (restoreOrder.reverse.map .push)).step .pushfq = s₁ at *
  have hrsp := hs.rsp
  have hlen : vs.length = 17 := by
    rw [← List.length_reverse,hvs]
    rfl
  rw [hlen] at hrsp
  have hklow := hk.low
  have hsub : (s₁.regs .rsp - 8).toNat = (s₁.regs .rsp).toNat - 8 :=
    BitVec.toNat_sub_of_le (show 8 ≤ (s₁.regs .rsp).toNat by omega)
  have hrsi : (s₁.exec (leave L.tss back')).regs .rsp = s.regs .rsi := hs.regs .rsi (by decide)
  have hpush := Cpu.pushed_push (s := s₁.exec (leave L.tss back'))
    (by rw [hrsi,hcall.rsi]; omega) back''
  have hprsp := hpush.rsp
  rw [hrsi,hcall.rsi,List.length_singleton] at hprsp
  have hstores := leave_stores s₁ L.tss back'
  rw [hs.regs .rdi (by decide),hcall.rdi,hs.regs .rdx (by decide),hcall.rdx,hsub] at hstores
  have hhigh := hk.high
  have hkrsp := hk.rsp
  have htss := L.tss_stack_apart n
  refine ⟨_,rfl,hprsp,?_,?_⟩
  · intro a ha
    simp only [Written, not_or] at ha
    rw [hpush.frame a (by rw [hrsi,hcall.rsi]; omega),hstores,Bytes.store_of_not_mem _ _ ha.2.2.2,
      Bytes.store_of_not_mem _ _ (by omega),Bytes.store_of_not_mem _ _ ha.2.2.1,hs.frame a (by omega)]
  · rw [Bytes.load_congr fun a h1 h2 => hpush.frame a (by rw [hrsi,hcall.rsi]; omega),hstores,
      Bytes.load_store_of_lt _ (by rw [← hcall.rdx]; exact (s.regs .rdx).isLt)]

/-- What `unlock_scheduler` leaves alone whatever stack it runs on. -/
def Quiet (P : Nat → Prop) (unlockScheduler : Cpu → Cpu) : Prop :=
  ∀ s a, P a → (unlockScheduler s).mem a = s.mem a

theorem switch_quiet {P : Nat → Prop} (hq : Quiet P unlockScheduler) (hk : Holds L n s.mem k)
    (hcall : CallsSwitch L c n s) (back back' back'' : BitVec 64) {a : Nat} (ha : P a) (hw : ¬ Written L c n s a) :
    ((s.push back).exec (threadSwitch L.tss back' back'' unlockScheduler)).mem a = s.mem a := by
  obtain ⟨s',hmem,-,hsame,-⟩ := before_unlock unlockScheduler hk hcall back back' back''
  rw [hmem,hq s' a ha,hsame a hw]

/-- After a switch the task state segment names the stack of the new thread. -/
theorem switch_rsp0 (hq : Quiet (fun a => (L.tss + 4).toNat ≤ a ∧ a < (L.tss + 4).toNat + 8) unlockScheduler)
    (hk : Holds L n s.mem k) (hcall : CallsSwitch L c n s) (back back' back'' : BitVec 64) :
    ((s.push back).exec (threadSwitch L.tss back' back'' unlockScheduler)).mem.load (L.tss + 4).toNat 8 =
      L.getTopOfStack n := by
  obtain ⟨s',hmem,-,-,hload⟩ := before_unlock unlockScheduler hk hcall back back' back''
  rw [hmem,← hload]
  exact Bytes.load_congr fun a h1 h2 => hq s' a ⟨h1,h2⟩

/-- What the threads own outside of what is written. -/
theorem switch_owned {alive : T → Prop} (hu : Unlocks L alive n unlockScheduler) (hk : Holds L n s.mem k)
    (hcall : CallsSwitch L c n s) (back back' back'' : BitVec 64) {t : T} (ht : alive t) {a : Nat}
    (ha : L.Owns t a) (hw : ¬ Written L c n s a) :
    ((s.push back).exec (threadSwitch L.tss back' back'' unlockScheduler)).mem a = s.mem a := by
  obtain ⟨s',hmem,hrsp,hsame,-⟩ := before_unlock unlockScheduler hk hcall back back' back''
  have hw' := hw
  simp only [Written, not_or] at hw'
  rw [hmem,(hu s').2 t ht a ha (by omega),hsame a hw]

private theorem start_mem_eq (s : Cpu) (back : BitVec 64) (unlockScheduler : Cpu → Cpu) :
    (s.exec (threadStart back unlockScheduler)).mem =
      (unlockScheduler ((s.set .rsp (s.regs .rdi)).push back)).mem := rfl

private theorem start_unlock (hk : Holds L n s.mem k)
    (hrdi : (s.regs .rdi).toNat = s.mem.load (L.stackPtr n).toNat 8) (back : BitVec 64) :
    (((s.set .rsp (s.regs .rdi)).push back).regs .rsp).toNat + 8 = s.mem.load (L.stackPtr n).toNat 8 ∧
      ∀ a, ¬ (L.kernelStack n ≤ a ∧ a < s.mem.load (L.stackPtr n).toNat 8) →
        ((s.set .rsp (s.regs .rdi)).push back).mem a = s.mem a := by
  have hlow := hk.low
  have hset : ((s.set .rsp (s.regs .rdi)).regs .rsp).toNat = s.mem.load (L.stackPtr n).toNat 8 := by
    rw [Cpu.set_self,hrdi]
  have hpush := Cpu.pushed_push (s := s.set .rsp (s.regs .rdi)) (by omega) back
  have hrsp := hpush.rsp
  rw [hset,List.length_singleton] at hrsp
  refine ⟨hrsp,?_⟩
  intro a ha
  exact hpush.frame a (by omega)

theorem start_quiet {P : Nat → Prop} (hq : Quiet P unlockScheduler) (hk : Holds L n s.mem k)
    (hrdi : (s.regs .rdi).toNat = s.mem.load (L.stackPtr n).toNat 8) (back : BitVec 64) {a : Nat} (ha : P a)
    (hw : ¬ (L.kernelStack n ≤ a ∧ a < s.mem.load (L.stackPtr n).toNat 8)) :
    (s.exec (threadStart back unlockScheduler)).mem a = s.mem a := by
  rw [start_mem_eq,hq _ a ha,(start_unlock hk hrdi back).2 a hw]

end

end HeineOS.Switch
