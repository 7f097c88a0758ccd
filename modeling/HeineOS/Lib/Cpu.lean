import HeineOS.Lib.Bytes
import Mathlib.Logic.Function.Basic

/-! Straight-line code of a 64-bit processor with a stack: registers, flags, memory, and what runs of pushes
and pops do to them. -/
namespace HeineOS.Lib

inductive Reg where
  | rax | rbx | rcx | rdx | rsi | rdi | rbp | rsp | r8 | r9 | r10 | r11 | r12 | r13 | r14 | r15
  deriving DecidableEq, Repr

structure Cpu where
  regs : Reg → BitVec 64
  rflags : BitVec 64
  rip : BitVec 64
  mem : Bytes

/-- A call pushes the address behind it and runs the callee up to its `ret`. -/
inductive Instr where
  | push (r : Reg)
  | pop (r : Reg)
  | pushfq
  | popfq
  | mov (dst src : Reg)
  | movImm (dst : Reg) (v : BitVec 64)
  | store (base : Reg) (disp : BitVec 64) (src : Reg)
  | cmp (r : Reg) (v : BitVec 64)
  | call (back : BitVec 64) (callee : Cpu → Cpu)
  | ret

/-- The bits of the flags that a comparison sets: carry, parity, adjust, zero, sign and overflow. -/
def comparisonBits : List Nat := [0,2,4,6,7,11]

private def flagBit (i : Nat) (b : Bool) : BitVec 64 := if b then BitVec.twoPow 64 i else 0

/-- The flags after the comparison of two words, which are those of their difference. -/
def compareFlags (flags a b : BitVec 64) : BitVec 64 :=
  let d := a - b
  flags &&& ~~~0x8d5 |||
    flagBit 0 (a.ult b) |||
    flagBit 2 ((List.range 8).countP d.getLsbD % 2 == 0) |||
    flagBit 4 ((a.setWidth 4).ult (b.setWidth 4)) |||
    flagBit 6 (d == 0) |||
    flagBit 7 d.msb |||
    flagBit 11 (a.msb != b.msb && d.msb != a.msb)

private theorem getLsbD_flagBit {i : Nat} (hi : i < 64) (b : Bool) (j : Nat) :
    (flagBit i b).getLsbD j = (decide (i = j) && b) := by
  cases b with
  | false => exact BitVec.getLsbD_zero.trans (Bool.and_false _).symm
  | true => rw [flagBit,if_pos rfl,Bool.and_true,BitVec.getLsbD_twoPow,decide_eq_true hi,Bool.true_and]

private theorem getLsbD_comparisonBits (i : Nat) : (0x8d5 : BitVec 64).getLsbD i = decide (i ∈ comparisonBits) := by
  by_cases hi : i < 12
  · have hall : ∀ i < 12, (0x8d5 : BitVec 64).getLsbD i = decide (i ∈ comparisonBits) := by decide
    exact hall i hi
  · have hout : i ∉ comparisonBits := by
      simp only [comparisonBits, List.mem_cons, List.not_mem_nil, or_false]
      omega
    have hlt : 0x8d5 < 2^i := lt_of_lt_of_le (show 0x8d5 < 2^12 by decide) (Nat.pow_le_pow_right (by decide) (by omega))
    change (BitVec.ofNat 64 0x8d5).getLsbD i = _
    rw [BitVec.getLsbD_ofNat,Nat.testBit_lt_two_pow hlt,Bool.and_false,decide_eq_false hout]

private theorem getLsbD_compareFlags (flags a b : BitVec 64) (i : Nat) :
    (compareFlags flags a b).getLsbD i = ((flags.getLsbD i && (decide (i < 64) && !decide (i ∈ comparisonBits))) ||
      (decide (0 = i) && a.ult b) ||
      (decide (2 = i) && ((List.range 8).countP (a - b).getLsbD % 2 == 0)) ||
      (decide (4 = i) && (a.setWidth 4).ult (b.setWidth 4)) ||
      (decide (6 = i) && (a - b == 0)) ||
      (decide (7 = i) && (a - b).msb) ||
      (decide (11 = i) && (a.msb != b.msb && (a - b).msb != a.msb))) := by
  simp only [compareFlags, BitVec.getLsbD_or, BitVec.getLsbD_and, BitVec.getLsbD_not, getLsbD_comparisonBits,
    getLsbD_flagBit, Nat.reduceLT]

/-- The carry says that the first word is below the second. -/
theorem compareFlags_carry (flags a b : BitVec 64) : (compareFlags flags a b).getLsbD 0 = a.ult b := by
  rw [getLsbD_compareFlags]
  simp [comparisonBits]

theorem compareFlags_other (flags a b : BitVec 64) {i : Nat} (hi : i ∉ comparisonBits) :
    (compareFlags flags a b).getLsbD i = flags.getLsbD i := by
  have hne : ∀ j ∈ comparisonBits, decide (j = i) = false := by
    intro j hj
    apply decide_eq_false
    rintro rfl
    exact hi hj
  rw [getLsbD_compareFlags,hne 0 (by decide),hne 2 (by decide),hne 4 (by decide),hne 6 (by decide),hne 7 (by decide),
    hne 11 (by decide),decide_eq_false hi]
  simp only [Bool.false_and, Bool.or_false, Bool.not_false, Bool.and_true]
  by_cases hlt : i < 64
  · rw [decide_eq_true hlt,Bool.and_true]
  · rw [BitVec.getLsbD_of_ge _ _ (Nat.le_of_not_lt hlt),Bool.false_and]

namespace Bytes

/-- The 64-bit words from `a` on. -/
def Words (m : Bytes) : Nat → List (BitVec 64) → Prop
  | _,[] => True
  | a,w :: ws => m.load a 8 = w.toNat ∧ Words m (a + 8) ws

theorem Words.congr {m m' : Bytes} {a : Nat} {ws : List (BitVec 64)} (h : m.Words a ws)
    (hm : ∀ x, a ≤ x → x < a + 8 * ws.length → m' x = m x) : m'.Words a ws := by
  induction ws generalizing a with
  | nil => trivial
  | cons w ws ih =>
    rw [List.length_cons] at hm
    constructor
    · rw [← h.1]
      exact load_congr fun x h1 h2 => hm x h1 (by omega)
    · exact ih h.2 fun x h1 h2 => hm x (by omega) (by omega)

theorem Words.store {m : Bytes} {a : Nat} {ws : List (BitVec 64)} (h : m.Words (a + 8) ws) (w : BitVec 64) :
    (m.store a 8 w.toNat).Words a (w :: ws) := by
  constructor
  · exact load_store_of_lt m w.isLt
  · apply h.congr
    intro x h1 h2
    exact store_of_not_mem m _ (by omega)

end Bytes

namespace Cpu

def set (s : Cpu) (r : Reg) (v : BitVec 64) : Cpu := { s with regs := Function.update s.regs r v }

def write (s : Cpu) (a v : BitVec 64) : Cpu := { s with mem := s.mem.store a.toNat 8 v.toNat }

def read (s : Cpu) (a : BitVec 64) : BitVec 64 := BitVec.ofNat 64 (s.mem.load a.toNat 8)

def push (s : Cpu) (v : BitVec 64) : Cpu := (s.set .rsp (s.regs .rsp - 8)).write (s.regs .rsp - 8) v

/-- The word on the stack, and the stack without it. -/
def pop (s : Cpu) : BitVec 64 × Cpu := (s.read (s.regs .rsp),s.set .rsp (s.regs .rsp + 8))

def ret (s : Cpu) : Cpu := { s.pop.2 with rip := s.pop.1 }

def step (s : Cpu) : Instr → Cpu
  | .push r => s.push (s.regs r)
  | .pop r => s.pop.2.set r s.pop.1
  | .pushfq => s.push s.rflags
  | .popfq => { s.pop.2 with rflags := s.pop.1 }
  | .mov dst src => s.set dst (s.regs src)
  | .movImm dst v => s.set dst v
  | .store base disp src => s.write (s.regs base + disp) (s.regs src)
  | .cmp r v => { s with rflags := compareFlags s.rflags (s.regs r) v }
  | .call back callee => (callee (s.push back)).ret
  | .ret => s.ret

def exec (s : Cpu) (code : List Instr) : Cpu := code.foldl step s

variable (s : Cpu) {r : Reg}

@[simp] theorem exec_nil : s.exec [] = s := rfl
@[simp] theorem exec_cons (i : Instr) (code : List Instr) : s.exec (i :: code) = (s.step i).exec code := rfl

theorem exec_append (code code' : List Instr) : s.exec (code ++ code') = (s.exec code).exec code' :=
  List.foldl_append

@[simp] theorem set_self (v : BitVec 64) : (s.set r v).regs r = v := Function.update_self _ _ _

theorem set_ne {r' : Reg} (h : r' ≠ r) (v : BitVec 64) : (s.set r v).regs r' = s.regs r' :=
  Function.update_of_ne h _ _

@[simp] theorem set_mem (v : BitVec 64) : (s.set r v).mem = s.mem := rfl
@[simp] theorem set_rflags (v : BitVec 64) : (s.set r v).rflags = s.rflags := rfl
@[simp] theorem set_rip (v : BitVec 64) : (s.set r v).rip = s.rip := rfl
@[simp] theorem write_regs (a v : BitVec 64) : (s.write a v).regs = s.regs := rfl
@[simp] theorem write_rflags (a v : BitVec 64) : (s.write a v).rflags = s.rflags := rfl
@[simp] theorem write_rip (a v : BitVec 64) : (s.write a v).rip = s.rip := rfl

variable {s}

/-- `s'` is `s` after the values were pushed in turn. -/
structure Pushed (s : Cpu) (vs : List (BitVec 64)) (s' : Cpu) : Prop where
  rsp : (s'.regs .rsp).toNat + 8 * vs.length = (s.regs .rsp).toNat
  regs : ∀ r, r ≠ .rsp → s'.regs r = s.regs r
  rflags : s'.rflags = s.rflags
  rip : s'.rip = s.rip
  words : ∀ ws, s.mem.Words (s.regs .rsp).toNat ws → s'.mem.Words (s'.regs .rsp).toNat (vs.reverse ++ ws)
  frame : ∀ a, ¬ ((s'.regs .rsp).toNat ≤ a ∧ a < (s.regs .rsp).toNat) → s'.mem a = s.mem a

theorem Pushed.refl (s : Cpu) : s.Pushed [] s where
  rsp := rfl
  regs _ _ := rfl
  rflags := rfl
  rip := rfl
  words _ h := h
  frame _ _ := rfl

theorem Pushed.trans {s' s'' : Cpu} {vs vs' : List (BitVec 64)} (h : s.Pushed vs s') (h' : s'.Pushed vs' s'') :
    s.Pushed (vs ++ vs') s'' := by
  have hrsp := h.rsp
  have hrsp' := h'.rsp
  refine ⟨?_,fun r hr => (h'.regs r hr).trans (h.regs r hr),h'.rflags.trans h.rflags,h'.rip.trans h.rip,?_,?_⟩
  · rw [List.length_append]
    omega
  · intro ws hws
    rw [List.reverse_append,List.append_assoc]
    exact h'.words _ (h.words ws hws)
  · intro a ha
    rw [h'.frame a (by omega),h.frame a (by omega)]

theorem pushed_push (h : 8 ≤ (s.regs .rsp).toNat) (v : BitVec 64) : s.Pushed [v] (s.push v) := by
  have hsub : (s.regs .rsp - 8).toNat = (s.regs .rsp).toNat - 8 := BitVec.toNat_sub_of_le h
  have hrsp : (s.push v).regs .rsp = s.regs .rsp - 8 := by
    rw [push,write_regs,set_self]
  refine ⟨?_,fun r hr => set_ne _ hr _,rfl,rfl,?_,?_⟩
  · rw [hrsp,hsub,List.length_singleton]
    omega
  · intro ws hws
    rw [hrsp,hsub]
    change (s.mem.store (s.regs .rsp - 8).toNat 8 v.toNat).Words _ (v :: ws)
    rw [hsub]
    apply Bytes.Words.store
    rwa [Nat.sub_add_cancel h]
  · intro a ha
    rw [hrsp,hsub] at ha
    apply Bytes.store_of_not_mem
    rw [hsub]
    omega

/-- A run of pushes leaves the values of the registers on the stack, the last one lowest. -/
theorem pushed_exec {rs : List Reg} (hrs : .rsp ∉ rs) (h : 8 * rs.length ≤ (s.regs .rsp).toNat) :
    s.Pushed (rs.map s.regs) (s.exec (rs.map .push)) := by
  induction rs generalizing s with
  | nil => exact .refl s
  | cons r rs ih =>
    rw [List.length_cons] at h
    have hpush := pushed_push (show 8 ≤ (s.regs .rsp).toNat by omega) (s.regs r)
    have hrsp := hpush.rsp
    rw [List.length_singleton] at hrsp
    have hrest := ih (fun hm => hrs (List.mem_cons_of_mem _ hm))
      (show 8 * rs.length ≤ ((s.push (s.regs r)).regs .rsp).toNat by omega)
    have hsame : rs.map (s.push (s.regs r)).regs = rs.map s.regs := by
      apply List.map_congr_left
      intro r' hr'
      apply hpush.regs
      rintro rfl
      exact hrs (List.mem_cons_of_mem _ hr')
    rw [hsame] at hrest
    exact hpush.trans hrest

section
variable {w : BitVec 64} {ws : List (BitVec 64)}

private theorem pop_word (h : s.mem.Words (s.regs .rsp).toNat (w :: ws)) : s.pop.1 = w := by
  change BitVec.ofNat 64 (s.mem.load (s.regs .rsp).toNat 8) = w
  rw [h.1,BitVec.ofNat_toNat,BitVec.setWidth_eq]

private theorem pop_rsp (h : (s.regs .rsp).toNat + 8 < 2^64) :
    (s.pop.2.regs .rsp).toNat = (s.regs .rsp).toNat + 8 := by
  change ((s.set .rsp (s.regs .rsp + 8)).regs .rsp).toNat = _
  rw [set_self,BitVec.toNat_add]
  exact Nat.mod_eq_of_lt h

/-- The registers `rs` are popped to `f`, below the words `ws`. -/
structure Popped (s : Cpu) (rs : List Reg) (f : Reg → BitVec 64) (ws : List (BitVec 64)) (s' : Cpu) : Prop where
  rsp : (s'.regs .rsp).toNat = (s.regs .rsp).toNat + 8 * rs.length
  popped : ∀ r ∈ rs, s'.regs r = f r
  regs : ∀ r, r ≠ .rsp → r ∉ rs → s'.regs r = s.regs r
  rflags : s'.rflags = s.rflags
  rip : s'.rip = s.rip
  mem : s'.mem = s.mem
  words : s'.mem.Words (s'.regs .rsp).toNat ws

/-- A run of pops loads each register from its place in the frame. -/
theorem popped_exec {rs : List Reg} (hrs : .rsp ∉ rs) {f : Reg → BitVec 64}
    (hw : s.mem.Words (s.regs .rsp).toNat (rs.map f ++ ws))
    (hlt : (s.regs .rsp).toNat + 8 * rs.length < 2^64) : s.Popped rs f ws (s.exec (rs.map .pop)) := by
  induction rs generalizing s with
  | nil => exact ⟨rfl,fun r hr => absurd hr List.not_mem_nil,fun _ _ _ => rfl,rfl,rfl,rfl,hw⟩
  | cons r rs ih =>
    rw [List.length_cons] at hlt
    rw [List.mem_cons,not_or] at hrs
    have hrsp : ((s.step (.pop r)).regs .rsp).toNat = (s.regs .rsp).toNat + 8 := by
      rw [step,set_ne _ hrs.1]
      exact pop_rsp (by omega)
    have hself : (s.step (.pop r)).regs r = f r := (set_self _ _).trans (pop_word hw)
    have hne : ∀ r', r' ≠ .rsp → r' ≠ r → (s.step (.pop r)).regs r' = s.regs r' := by
      intro r' h1 h2
      rw [step,set_ne _ h2]
      exact set_ne _ h1 _
    have hwords : (s.step (.pop r)).mem.Words ((s.step (.pop r)).regs .rsp).toNat (rs.map f ++ ws) := by
      rw [hrsp]
      exact hw.2
    have hrest := ih hrs.2 hwords (by omega)
    refine ⟨?_,?_,?_,hrest.rflags,hrest.rip,hrest.mem,hrest.words⟩
    · rw [List.map_cons,exec_cons,hrest.rsp,hrsp,List.length_cons]
      omega
    · intro r' hr'
      by_cases hm : r' ∈ rs
      · exact hrest.popped r' hm
      · obtain rfl : r' = r := (List.mem_cons.mp hr').resolve_right hm
        rw [List.map_cons,exec_cons,hrest.regs r' (fun h => hrs.1 h.symm) hm,hself]
    · intro r' h1 h2
      rw [List.mem_cons,not_or] at h2
      rw [List.map_cons,exec_cons,hrest.regs r' h1 h2.2,hne r' h1 h2.1]

theorem popfq_spec (hw : s.mem.Words (s.regs .rsp).toNat (w :: ws)) (hlt : (s.regs .rsp).toNat + 8 < 2^64) :
    (s.step .popfq).rflags = w ∧ ((s.step .popfq).regs .rsp).toNat = (s.regs .rsp).toNat + 8 ∧
      (s.step .popfq).mem = s.mem := by
  have hrsp : (s.pop.2.regs .rsp).toNat = (s.regs .rsp).toNat + 8 := pop_rsp hlt
  exact ⟨pop_word hw,hrsp,rfl⟩

theorem ret_spec (hw : s.mem.Words (s.regs .rsp).toNat (w :: ws)) (hlt : (s.regs .rsp).toNat + 8 < 2^64) :
    s.ret.rip = w ∧ (s.ret.regs .rsp).toNat = (s.regs .rsp).toNat + 8 ∧
      (∀ r, r ≠ .rsp → s.ret.regs r = s.regs r) ∧ s.ret.rflags = s.rflags ∧ s.ret.mem = s.mem := by
  have hrsp : (s.pop.2.regs .rsp).toNat = (s.regs .rsp).toNat + 8 := pop_rsp hlt
  have hregs : ∀ r, r ≠ .rsp → s.pop.2.regs r = s.regs r := fun _ hr => set_ne _ hr _
  exact ⟨pop_word hw,hrsp,hregs,rfl,rfl⟩

end

/-- A callee that leaves the stack pointer where it found it returns to the caller's stack. -/
theorem call_spec {back : BitVec 64} {callee : Cpu → Cpu}
    (h : (callee (s.push back)).regs .rsp = (s.push back).regs .rsp) :
    (s.step (.call back callee)).regs .rsp = s.regs .rsp ∧
      (s.step (.call back callee)).mem = (callee (s.push back)).mem := by
  constructor
  · change ((callee (s.push back)).set .rsp ((callee (s.push back)).regs .rsp + 8)).regs .rsp = _
    rw [set_self,h,push,write_regs,set_self,BitVec.sub_add_cancel]
  · rfl

end Cpu

end HeineOS.Lib
