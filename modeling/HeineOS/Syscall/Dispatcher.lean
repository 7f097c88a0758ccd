import HeineOS.Lib.Rings

/-! System calls: the table of functions, the way into one of them and the way back. -/
namespace HeineOS.Syscall
open Lib

inductive SyscallFunction where
  | helloWorld
  | threadYield
  | threadWait
  | threadExit
  | threadGetId
  | getSystemTime
  | print
  | getKeyEvent
  | numSyscalls
  deriving DecidableEq, Repr

def SyscallFunction.toNat (f : SyscallFunction) : Nat := f.ctorIdx

/-- The addresses of the kernel's functions. -/
structure KernelFunctions where
  sysHelloWorld : BitVec 64
  sysThreadYield : BitVec 64
  sysThreadWait : BitVec 64
  sysThreadExit : BitVec 64
  sysThreadGetId : BitVec 64
  sysGetSystemTime : BitVec 64
  sysPrint : BitVec 64
  sysGetKeyEvent : BitVec 64

def SyscallFunctionTable.new (K : KernelFunctions) : List (BitVec 64) :=
  [K.sysHelloWorld,
    K.sysThreadYield,
    K.sysThreadWait,
    K.sysThreadExit,
    K.sysThreadGetId,
    K.sysGetSystemTime,
    K.sysPrint,
    K.sysGetKeyEvent]

/-- The registers that the dispatcher saves, all but `rax`. -/
def saved : List Reg := [.r8,.r9,.r10,.r11,.r12,.r13,.r14,.r15,.rbx,.rcx,.rdx,.rsi,.rdi,.rbp]

/-- The first half of the dispatcher, up to the first instruction of the function. There is no result where the
comparison leaves no carry and it jumps to `syscall_abort`, which panics. -/
def dispatchSyscall (K : KernelFunctions) (back : BitVec 64) (c : Core) : Option Core :=
  let s := c.cpu.exec (saved.map .push ++ [.cmp .rax (BitVec.ofNat 64 SyscallFunction.numSyscalls.toNat)])
  if !s.rflags.getLsbD 0 then none
  else some { c with cpu := { s.push back with rip := (SyscallFunctionTable.new K).getD (s.regs .rax).toNat 0 } }

/-- The second half, after the return of the function. -/
def returnFromSyscall (T : Tables) (c : Core) : Option Core :=
  Core.iretq T { c with cpu := c.cpu.exec (saved.reverse.map .pop) }

/-- What an interrupted program gets back. -/
structure UserContext where
  regs : Reg → BitVec 64
  rflags : BitVec 64
  rip : BitVec 64
  cs : BitVec 16
  ss : BitVec 16

def UserContext.of (c : Core) (back : BitVec 64) : UserContext := ⟨c.cpu.regs,c.cpu.rflags,back,c.cs,c.ss⟩

/-- The words that the processor leaves on the stack. -/
def UserContext.interruptWords (k : UserContext) : List (BitVec 64) :=
  [k.rip,k.cs.setWidth 64,k.rflags,k.regs .rsp,k.ss.setWidth 64]

/-- The words that are on the stack while a system call runs. -/
def UserContext.syscallWords (k : UserContext) : List (BitVec 64) :=
  saved.reverse.map k.regs ++ k.interruptWords

private theorem rsp_not_mem_saved : Reg.rsp ∉ saved := by decide

theorem mem_saved {r : Reg} (hsp : r ≠ .rsp) (hax : r ≠ .rax) : r ∈ saved := by
  cases r <;> first | decide | exact absurd rfl hsp | exact absurd rfl hax

/-- A function of the kernel starts on the caller's registers, below the words to restore. -/
structure Called (K : KernelFunctions) (c : Core) (k : UserContext) (base : Nat) (c' : Core) : Prop where
  rsp : (c'.cpu.regs .rsp).toNat + 8 * 20 = base
  regs : ∀ r, r ≠ .rsp → c'.cpu.regs r = k.regs r
  rip : (SyscallFunctionTable.new K)[(k.regs .rax).toNat]? = some c'.cpu.rip
  rflags : c'.cpu.rflags = compareFlags c.cpu.rflags (k.regs .rax) 8
  cs : c'.cs = c.cs
  words : c'.cpu.mem.Words (base - 8 * 19) k.syscallWords
  mem : ∀ a, ¬ ((c'.cpu.regs .rsp).toNat ≤ a ∧ a < (c.cpu.regs .rsp).toNat) → c'.cpu.mem a = c.cpu.mem a

section
variable {K : KernelFunctions} {c c' : Core} {k : UserContext} {back : BitVec 64}

/-- The dispatcher on the frame of an interrupt. -/
theorem dispatchSyscall_spec {base : Nat} (hbase : (c.cpu.regs .rsp).toNat + 40 = base)
    (hroom : 8 * 20 ≤ base) (hregs : ∀ r, r ≠ .rsp → c.cpu.regs r = k.regs r)
    (hwords : c.cpu.mem.Words (c.cpu.regs .rsp).toNat k.interruptWords) :
    (8 ≤ (k.regs .rax).toNat → dispatchSyscall K back c = none) ∧
      ((k.regs .rax).toNat < 8 → ∃ c', dispatchSyscall K back c = some c' ∧ Called K c k base c') := by
  have hlen : saved.length = 14 := rfl
  have hpush := Cpu.pushed_exec rsp_not_mem_saved (s := c.cpu) (show 8 * saved.length ≤ _ by omega)
  have hsame : saved.map c.cpu.regs = saved.map k.regs := by
    apply List.map_congr_left
    intro r hr
    apply hregs
    rintro rfl
    exact rsp_not_mem_saved hr
  rw [hsame] at hpush
  unfold dispatchSyscall
  rw [Cpu.exec_append]
  generalize c.cpu.exec (saved.map .push) = s at *
  have hrsp := hpush.rsp
  rw [List.length_map,hlen] at hrsp
  have hrax : s.regs .rax = k.regs .rax := (hpush.regs .rax (by decide)).trans (hregs .rax (by decide))
  -- the comparison changes nothing but the flags
  let t : Cpu := { s with rflags := compareFlags c.cpu.rflags (k.regs .rax) 8 }
  have hcmp : s.exec [.cmp .rax (BitVec.ofNat 64 SyscallFunction.numSyscalls.toNat)] = t := by
    change Cpu.mk _ (compareFlags s.rflags (s.regs .rax) 8) _ _ = _
    rw [hpush.rflags,hrax]
  have hcarry : t.rflags.getLsbD 0 = (k.regs .rax).ult 8 := compareFlags_carry _ _ _
  have hback := Cpu.pushed_push (s := t) (show 8 ≤ (s.regs .rsp).toNat by omega) back
  have hbrsp : ((t.push back).regs .rsp).toNat + 8 * 1 = (s.regs .rsp).toNat := hback.rsp
  have hw := hback.words _ (hpush.words _ hwords)
  rw [List.reverse_singleton,List.singleton_append,← List.map_reverse] at hw
  rw [hcmp]
  dsimp only
  rw [hcarry]
  constructor
  · intro h
    apply if_pos
    rw [Bool.not_eq_true',BitVec.ult,decide_eq_false_iff_not]
    exact Nat.not_lt.mpr h
  · intro h
    have hult : (k.regs .rax).ult 8 = true := decide_eq_true h
    have hjump : ¬ (!(k.regs .rax).ult 8) = true := by
      rw [hult]
      exact Bool.false_ne_true
    refine ⟨_,if_neg hjump,?_,?_,?_,hback.rflags,rfl,?_,?_⟩
    · change ((t.push back).regs .rsp).toNat + 8 * 20 = base
      omega
    · intro r hr
      exact (hback.regs r hr).trans ((hpush.regs r hr).trans (hregs r hr))
    · change _ = some ((SyscallFunctionTable.new K).getD (s.regs .rax).toNat 0)
      rw [hrax,List.getD_eq_getElem?_getD,List.getElem?_eq_getElem (show _ < (SyscallFunctionTable.new K).length from h),
        Option.getD_some]
    · have hw2 := hw.2
      rwa [show ((t.push back).regs .rsp).toNat + 8 = base - 8 * 19 by omega] at hw2
    · intro a ha
      change ¬ (((t.push back).regs .rsp).toNat ≤ a ∧ _) at ha
      have hfirst : t.mem a = c.cpu.mem a := hpush.frame a (by omega)
      exact (hback.frame a (by change ¬ (_ ∧ a < (s.regs .rsp).toNat); omega)).trans hfirst

/-- The way back restores what the words say, and keeps `rax`. -/
theorem returnFromSyscall_spec {T : Tables} {d e : Segment}
    (hwords : c.cpu.mem.Words (c.cpu.regs .rsp).toNat k.syscallWords)
    (hroom : (c.cpu.regs .rsp).toNat + 8 * 19 < 2^64) (hcpl : c.cpl = 0) (hcs : k.cs.toNat % 4 = 3)
    (hss : k.ss.toNat % 4 = 3) (hd : T.codeSegment c.cpu.mem k.cs.toNat = some d) (hring : d.dpl = 3)
    (hconf : ¬ d.Conforming) (he : T.descriptor c.cpu.mem k.ss.toNat = some e) (hdata : e.WritableData)
    (hering : e.dpl = 3) (hpresent : e.present = true) :
    ∃ c', returnFromSyscall T c = some c' ∧ (∀ r, r ≠ .rax → c'.cpu.regs r = k.regs r) ∧
      c'.cpu.regs .rax = c.cpu.regs .rax ∧ c'.cpu.rflags = k.rflags ∧ c'.cpu.rip = k.rip ∧ c'.cs = k.cs ∧
      c'.ss = k.ss ∧ c'.cpu.mem = c.cpu.mem := by
  have hnot : Reg.rsp ∉ saved.reverse := fun h => rsp_not_mem_saved (List.mem_reverse.mp h)
  have hlen : saved.reverse.length = 14 := rfl
  have hpop := Cpu.popped_exec hnot hwords (by omega)
  unfold returnFromSyscall
  generalize c.cpu.exec (saved.reverse.map .pop) = s at *
  have hcs' : (k.cs.setWidth 64).setWidth 16 = k.cs := by simp
  have hss' : (k.ss.setWidth 64).setWidth 16 = k.ss := by simp
  have hret := Core.iretq_eq (T := T) (c := { c with cpu := s }) (d := d) (e := e) (hpop.words) hcpl
    (by rw [hcs',hcs]) (by rw [hss',hss]) (by rw [hcs',hpop.mem,hd]) hring hconf (by rw [hss',hpop.mem,he])
    hdata hering hpresent
  rw [hcs',hss'] at hret
  have hreg : ∀ r, r ≠ .rsp → (s.set .rsp (k.regs .rsp)).regs r = s.regs r := fun r hr => Cpu.set_ne _ hr _
  refine ⟨_,hret,?_,?_,rfl,rfl,rfl,rfl,hpop.mem⟩
  · intro r hr
    change (s.set .rsp (k.regs .rsp)).regs r = k.regs r
    by_cases hsp : r = .rsp
    · subst hsp
      exact Cpu.set_self _ _
    · rw [hreg r hsp,hpop.popped r (List.mem_reverse.mpr (mem_saved hsp hr))]
  · exact (hreg .rax (by decide)).trans (hpop.regs .rax (by decide) (by decide))

end

end HeineOS.Syscall
