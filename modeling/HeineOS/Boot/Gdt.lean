import HeineOS.Lib.Rings

/-! The global descriptor table and the task state segment of the boot code, and what the processor reads in
them. -/
namespace HeineOS.Gdt
open Lib

/-- The table as it is assembled, in words of 16 bits. -/
def gdt : List Nat :=
  [0,0,0,0,
    0xffff,0x0000,0x9a00,0x00af,
    0xffff,0x0000,0x9200,0x00cf,
    0xffff,0x0000,0xfa00,0x00af,
    0xffff,0x0000,0xf200,0x00cf,
    0x0067,0x0000,0x8900,0x0000,0,0,0,0]

/-- Offset of the task state segment descriptor in the table. -/
def tssDescriptor : Nat := 40

/-- The limit that `gdt_descriptor` gives. -/
def gdtLimit : Nat := 7 * 8 - 1

/-- The data section: 16-bit words from `a` on. -/
def words : List Nat → Nat → Bytes → Bytes
  | [],_,m => m
  | w :: ws,a,m => words ws (a + 2) (m.store a 2 w)

def tssSetBaseAddress (tss : BitVec 64) (descriptor : Nat) (m : Bytes) : Bytes :=
  let rax := tss
  let m := m.store (descriptor + 2) 2 rax.toNat
  let rax := rax >>> 16
  let m := m.store (descriptor + 4) 1 rax.toNat
  let rax := rax >>> 8
  let m := m.store (descriptor + 7) 1 rax.toNat
  let rax := rax >>> 8
  m.store (descriptor + 8) 4 rax.toNat

/-- The table at `a` as the boot code leaves it. -/
def booted (a : Nat) (tss : BitVec 64) (m : Bytes) : Bytes := tssSetBaseAddress tss (a + tssDescriptor) (words gdt a m)

theorem words_frame {ws : List Nat} {a x : Nat} {m : Bytes} (h : ¬ (a ≤ x ∧ x < a + 2 * ws.length)) :
    words ws a m x = m x := by
  induction ws generalizing a m with
  | nil => rfl
  | cons w ws ih =>
    rw [List.length_cons] at h
    rw [words,ih (by omega),Bytes.store_of_not_mem _ _ (by omega)]

/-- The bytes of the section. -/
theorem words_byte {ws : List Nat} {i : Nat} (hi : i < 2 * ws.length) (a : Nat) (m : Bytes) :
    words ws a m (a + i) = UInt8.ofNat (ws.getD (i / 2) 0 / 256^(i % 2)) := by
  induction ws generalizing a m i with
  | nil => exact absurd hi (Nat.not_lt_zero i)
  | cons w ws ih =>
    rw [List.length_cons] at hi
    by_cases hlt : i < 2
    · rw [words,words_frame (by omega),Bytes.store,if_pos (by omega),Nat.add_sub_cancel_left,
        Nat.div_eq_of_lt hlt,Nat.mod_eq_of_lt hlt,List.getD_cons_zero]
    · have h := ih (show i - 2 < 2 * ws.length by omega) (a + 2) (m.store a 2 w)
      rw [show a + 2 + (i - 2) = a + i by omega,show (i - 2) / 2 = i / 2 - 1 by omega,
        show (i - 2) % 2 = i % 2 by omega] at h
      rw [words,h,show i / 2 = i / 2 - 1 + 1 by omega,List.getD_cons_succ,Nat.add_sub_cancel]

theorem tssSetBaseAddress_frame {tss : BitVec 64} {d x : Nat} {m : Bytes}
    (h : ¬ (d + 2 ≤ x ∧ x < d + 5 ∨ x = d + 7 ∨ d + 8 ≤ x ∧ x < d + 12)) : tssSetBaseAddress tss d m x = m x := by
  unfold tssSetBaseAddress
  rw [Bytes.store_of_not_mem _ _ (by omega),Bytes.store_of_not_mem _ _ (by omega),
    Bytes.store_of_not_mem _ _ (by omega),Bytes.store_of_not_mem _ _ (by omega)]

/-- The base that the processor reads is the address that was stored in its three parts. -/
theorem systemBase_tssSetBaseAddress (tss : BitVec 64) (d : Nat) (m : Bytes) :
    (tssSetBaseAddress tss d m).systemBase d = tss.toNat := by
  have h2 : (tssSetBaseAddress tss d m).load (d + 2) 2 = tss.toNat % 256^2 := by
    unfold tssSetBaseAddress
    rw [Bytes.load_store_apart _ _ (by omega),Bytes.load_store_apart _ _ (by omega),
      Bytes.load_store_apart _ _ (by omega),Bytes.load_store]
  have h4 : (tssSetBaseAddress tss d m).load (d + 4) 1 = tss.toNat / 2^16 % 256^1 := by
    unfold tssSetBaseAddress
    rw [Bytes.load_store_apart _ _ (by omega),Bytes.load_store_apart _ _ (by omega),Bytes.load_store,
      BitVec.toNat_ushiftRight,Nat.shiftRight_eq_div_pow]
  have h7 : (tssSetBaseAddress tss d m).load (d + 7) 1 = tss.toNat / 2^24 % 256^1 := by
    unfold tssSetBaseAddress
    rw [Bytes.load_store_apart _ _ (by omega),Bytes.load_store,BitVec.toNat_ushiftRight,BitVec.toNat_ushiftRight,
      Nat.shiftRight_eq_div_pow,Nat.shiftRight_eq_div_pow,Nat.div_div_eq_div_mul]
    rfl
  have h8 : (tssSetBaseAddress tss d m).load (d + 8) 4 = tss.toNat / 2^32 % 256^4 := by
    unfold tssSetBaseAddress
    rw [Bytes.load_store,BitVec.toNat_ushiftRight,BitVec.toNat_ushiftRight,BitVec.toNat_ushiftRight,
      Nat.shiftRight_eq_div_pow,Nat.shiftRight_eq_div_pow,Nat.shiftRight_eq_div_pow,Nat.div_div_eq_div_mul,
      Nat.div_div_eq_div_mul]
    rfl
  have hlt := tss.isLt
  simp only [Bytes.systemBase, Bytes.segment, h2, h4, h7, h8]
  omega

/-- What else the descriptor says stays. -/
theorem segment_tssSetBaseAddress (tss : BitVec 64) (d : Nat) (m : Bytes) :
    { (tssSetBaseAddress tss d m).segment d with base := (m.segment d).base } = m.segment d := by
  have h0 : (tssSetBaseAddress tss d m).load d 2 = m.load d 2 :=
    Bytes.load_congr fun x _ _ => tssSetBaseAddress_frame (by omega)
  have h5 : (tssSetBaseAddress tss d m).load (d + 5) 1 = m.load (d + 5) 1 :=
    Bytes.load_congr fun x _ _ => tssSetBaseAddress_frame (by omega)
  have h6 : (tssSetBaseAddress tss d m).load (d + 6) 1 = m.load (d + 6) 1 :=
    Bytes.load_congr fun x _ _ => tssSetBaseAddress_frame (by omega)
  simp only [Bytes.segment, h0, h5, h6]

def kernelCode : Segment := ⟨0,0xfffff,26,0,true,true⟩
def kernelData : Segment := ⟨0,0xfffff,18,0,true,false⟩
def userCode : Segment := ⟨0,0xfffff,26,3,true,true⟩
def userData : Segment := ⟨0,0xfffff,18,3,true,false⟩

/-- The table as the processor reads it. -/
theorem segment_words {i : Nat} (hi : i < 7) (a : Nat) (m : Bytes) :
    (words gdt a m).segment (a + 8 * i) = (words gdt 0 fun _ => 0).segment (0 + 8 * i) := by
  apply Bytes.segment_shift
  intro k hk
  have hlt : 8 * i + k < 2 * gdt.length := by
    change 8 * i + k < 56
    omega
  rw [Nat.add_assoc,Nat.add_assoc,words_byte hlt,words_byte hlt]

theorem segment_booted {i : Nat} (hi : i < 5) (a : Nat) (tss : BitVec 64) (m : Bytes) :
    (booted a tss m).segment (a + 8 * i) = (words gdt 0 fun _ => 0).segment (0 + 8 * i) := by
  rw [← segment_words (by omega) a m]
  apply Bytes.segment_shift
  intro k hk
  exact tssSetBaseAddress_frame (by rw [tssDescriptor]; omega)

/-- The boot code leaves four flat segments, two for each ring, and a task state segment of 104 bytes where it
lies. -/
theorem booted_spec (a : Nat) (tss : BitVec 64) (m : Bytes) :
    (booted a tss m).segment (a + 8) = kernelCode ∧ (booted a tss m).segment (a + 16) = kernelData ∧
      (booted a tss m).segment (a + 24) = userCode ∧ (booted a tss m).segment (a + 32) = userData ∧
      (booted a tss m).systemBase (a + 40) = tss.toNat ∧ ((booted a tss m).segment (a + 40)).limit = 103 := by
  refine ⟨segment_booted (show 1 < 5 by decide) a tss m,segment_booted (show 2 < 5 by decide) a tss m,
    segment_booted (show 3 < 5 by decide) a tss m,segment_booted (show 4 < 5 by decide) a tss m,
    systemBase_tssSetBaseAddress _ _ _,?_⟩
  have h := congrArg Segment.limit (segment_tssSetBaseAddress tss (a + tssDescriptor) (words gdt a m))
  exact h.trans (congrArg Segment.limit (segment_words (show 5 < 7 by decide) a m))

end HeineOS.Gdt
