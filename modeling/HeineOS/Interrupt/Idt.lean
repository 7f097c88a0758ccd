import HeineOS.Lib.Rings

/-! The interrupt descriptor table: how its entries are built and what the processor reads in them. -/
namespace HeineOS.Idt
open Lib

def idtSize : Nat := 256

structure IdtEntry where
  offsetLow : BitVec 16
  selector : BitVec 16
  options : BitVec 16
  offsetMid : BitVec 16
  offsetHigh : BitVec 32
  reserved : BitVec 32
  deriving DecidableEq

namespace IdtEntry

/-- Selector 8 is the kernel code segment. -/
def new (offset : BitVec 64) (options : BitVec 16) : IdtEntry where
  offsetLow := offset.setWidth 16
  offsetMid := (offset >>> 16).setWidth 16
  offsetHigh := (offset >>> 32).setWidth 32
  selector := 8
  options := options
  reserved := 0

def withoutErrorCode (handler : BitVec 64) : IdtEntry :=
  let options := 0b1000111000000000
  new handler options

def withErrorCode (handler : BitVec 64) : IdtEntry :=
  let options := 0b1000111000000000
  new handler options

def newTrapGate (offset : BitVec 64) : IdtEntry :=
  let options := 0b1110111100000000
  new offset options

def syscallGate (handler : BitVec 64) : IdtEntry := newTrapGate handler

/-- The packed fields in memory. -/
def write (e : IdtEntry) (a : Nat) (m : Bytes) : Bytes :=
  let m := m.store a 2 e.offsetLow.toNat
  let m := m.store (a + 2) 2 e.selector.toNat
  let m := m.store (a + 4) 2 e.options.toNat
  let m := m.store (a + 6) 2 e.offsetMid.toNat
  let m := m.store (a + 8) 4 e.offsetHigh.toNat
  m.store (a + 12) 4 e.reserved.toNat

end IdtEntry

/-- The wrappers around `dispatch_interrupt`, one for each vector, and `dispatch_syscall`. -/
structure Handlers where
  wrapper : Nat → BitVec 64
  dispatchSyscall : BitVec 64

/-- The vectors for which the wrapper takes an error code from the stack. -/
def pushesErrorCode (intNum : Nat) : Bool :=
  intNum ∈ [0x08,0x0a,0x0b,0x0c,0x0d,0x0e,0x11,0x15,0x1d,0x1e]

def interruptHandler (H : Handlers) (intNum : Nat) : IdtEntry :=
  if pushesErrorCode intNum then .withErrorCode (H.wrapper intNum) else .withoutErrorCode (H.wrapper intNum)

def new (H : Handlers) : List IdtEntry :=
  (List.range idtSize).map fun v => if v = 0x80 then .syscallGate H.dispatchSyscall else interruptHandler H v

/-- The table panics on an index beyond its end. -/
def setEntry (entries : List IdtEntry) (index : Nat) (entry : IdtEntry) : Option (List IdtEntry) :=
  if index < entries.length then some (entries.set index entry) else none

structure IdtDescriptor where
  limit : Nat
  address : Nat

def IdtDescriptor.new (idt : Nat) : IdtDescriptor where
  limit := 16 * idtSize - 1
  address := idt

/-- The entries in memory from `a` on. -/
def image : List IdtEntry → Nat → Bytes → Bytes
  | [],_,m => m
  | e :: es,a,m => image es (a + 16) (e.write a m)

/-- The gate that the processor makes of an entry. -/
def IdtEntry.gate (e : IdtEntry) : Gate where
  offset := e.offsetLow.toNat + 2^16 * e.offsetMid.toNat + 2^32 * e.offsetHigh.toNat
  selector := e.selector.toNat
  ist := e.options.toNat % 8
  kind := e.options.toNat / 2^8 % 32
  dpl := e.options.toNat / 2^13 % 4
  present := decide (e.options.toNat / 2^15 = 1)

namespace IdtEntry

theorem write_frame (e : IdtEntry) {a x : Nat} (m : Bytes) (h : ¬ (a ≤ x ∧ x < a + 16)) : e.write a m x = m x := by
  unfold write
  rw [Bytes.store_of_not_mem _ _ (by omega),Bytes.store_of_not_mem _ _ (by omega),
    Bytes.store_of_not_mem _ _ (by omega),Bytes.store_of_not_mem _ _ (by omega),
    Bytes.store_of_not_mem _ _ (by omega),Bytes.store_of_not_mem _ _ (by omega)]

theorem gate_write (e : IdtEntry) (a : Nat) (m : Bytes) : (e.write a m).gate a = e.gate := by
  have hlow : (e.write a m).load a 2 = e.offsetLow.toNat := by
    unfold write
    rw [Bytes.load_store_apart _ _ (by omega),Bytes.load_store_apart _ _ (by omega),
      Bytes.load_store_apart _ _ (by omega),Bytes.load_store_apart _ _ (by omega),
      Bytes.load_store_apart _ _ (by omega),Bytes.load_store_of_lt _ e.offsetLow.isLt]
  have hselector : (e.write a m).load (a + 2) 2 = e.selector.toNat := by
    unfold write
    rw [Bytes.load_store_apart _ _ (by omega),Bytes.load_store_apart _ _ (by omega),
      Bytes.load_store_apart _ _ (by omega),Bytes.load_store_apart _ _ (by omega),
      Bytes.load_store_of_lt _ e.selector.isLt]
  have hoptions : (e.write a m).load (a + 4) 2 = e.options.toNat := by
    unfold write
    rw [Bytes.load_store_apart _ _ (by omega),Bytes.load_store_apart _ _ (by omega),
      Bytes.load_store_apart _ _ (by omega),Bytes.load_store_of_lt _ e.options.isLt]
  have hmid : (e.write a m).load (a + 6) 2 = e.offsetMid.toNat := by
    unfold write
    rw [Bytes.load_store_apart _ _ (by omega),Bytes.load_store_apart _ _ (by omega),
      Bytes.load_store_of_lt _ e.offsetMid.isLt]
  have hhigh : (e.write a m).load (a + 8) 4 = e.offsetHigh.toNat := by
    unfold write
    rw [Bytes.load_store_apart _ _ (by omega),Bytes.load_store_of_lt _ e.offsetHigh.isLt]
  simp only [Bytes.gate, gate, hlow, hselector, hoptions, hmid, hhigh]

/-- The three parts of an offset make the offset again. -/
theorem offset_new (offset : BitVec 64) (options : BitVec 16) : (new offset options).gate.offset = offset.toNat := by
  have h := offset.isLt
  simp only [gate, new, BitVec.toNat_setWidth, BitVec.toNat_ushiftRight, Nat.shiftRight_eq_div_pow]
  omega

theorem gate_of_new (offset : BitVec 64) (options : BitVec 16) :
    (new offset options).gate = ⟨offset.toNat,8,options.toNat % 8,options.toNat / 2^8 % 32,
      options.toNat / 2^13 % 4,decide (options.toNat / 2^15 = 1)⟩ := by
  have h := offset_new offset options
  simp only [gate, new] at h ⊢
  rw [h]
  rfl

end IdtEntry

theorem image_frame {es : List IdtEntry} {a x : Nat} {m : Bytes} (h : ¬ (a ≤ x ∧ x < a + 16 * es.length)) :
    image es a m x = m x := by
  induction es generalizing a m with
  | nil => rfl
  | cons e es ih =>
    rw [List.length_cons] at h
    rw [image,ih (by omega),e.write_frame m (by omega)]

/-- The processor reads in the table the gates of its entries. -/
theorem gate_image {es : List IdtEntry} {i : Nat} (hi : i < es.length) (a : Nat) (m : Bytes) :
    (image es a m).gate (a + 16 * i) = es[i].gate := by
  induction es generalizing a m i with
  | nil => exact absurd hi (Nat.not_lt_zero i)
  | cons e es ih =>
    cases i with
    | zero =>
      rw [Nat.mul_zero,Nat.add_zero,image,List.getElem_cons_zero,← e.gate_write a m]
      apply Bytes.gate_shift
      intro k hk
      exact image_frame (by omega)
    | succ i =>
      rw [image,List.getElem_cons_succ,← ih (Nat.lt_of_succ_lt_succ hi) (a + 16) (e.write a m)]
      congr 1
      omega

/-- The gate of a vector. -/
def gateOf (H : Handlers) (v : Nat) : Gate :=
  if v = 0x80 then ⟨H.dispatchSyscall.toNat,8,0,15,3,true⟩ else ⟨(H.wrapper v).toNat,8,0,14,0,true⟩

/-- Every gate leads to the kernel code segment and stays on the stack that the processor chooses. -/
theorem gateOf_spec (H : Handlers) (v : Nat) :
    (gateOf H v).selector = 8 ∧ (gateOf H v).ist = 0 ∧ (gateOf H v).present = true ∧
      (gateOf H v).kind = (if v = 0x80 then 15 else 14) ∧ (gateOf H v).dpl = (if v = 0x80 then 3 else 0) := by
  unfold gateOf
  by_cases h : v = 0x80
  · simp only [if_pos h, and_self]
  · simp only [if_neg h, and_self]

theorem gate_interruptHandler (H : Handlers) (v : Nat) :
    (interruptHandler H v).gate = ⟨(H.wrapper v).toNat,8,0,14,0,true⟩ := by
  have h : interruptHandler H v = .new (H.wrapper v) 0b1000111000000000 := by
    unfold interruptHandler
    split <;> rfl
  rw [h,IdtEntry.gate_of_new]
  congr 1

theorem gate_syscallGate (handler : BitVec 64) :
    (IdtEntry.syscallGate handler).gate = ⟨handler.toNat,8,0,15,3,true⟩ := by
  rw [IdtEntry.syscallGate,IdtEntry.newTrapGate,IdtEntry.gate_of_new]
  congr 1

theorem length_new (H : Handlers) : (new H).length = idtSize := by
  rw [new,List.length_map,List.length_range]

theorem gate_new {H : Handlers} {v : Nat} (hv : v < idtSize) (a : Nat) (m : Bytes) :
    (image (new H) a m).gate (a + 16 * v) = gateOf H v := by
  rw [gate_image (by rw [length_new]; exact hv)]
  simp only [new, List.getElem_map, List.getElem_range, gateOf]
  split
  · exact gate_syscallGate _
  · exact gate_interruptHandler H v

end HeineOS.Idt
