import Mathlib.Algebra.Order.Group.Nat
import Mathlib.Data.Nat.Bitwise
import Mathlib.Tactic.Ring

/-! `usize` arithmetic as built with overflow checks, `align_up`, and the part of
`core::alloc::Layout` that the allocators use. -/
namespace HeineOS

/-- Why a kernel function stopped. `arithmetic` is the check the compiler adds to `+` and `-`. -/
inductive Panic where
  | arithmetic
  | adjustingAlignmentFailed
  | overflow
  | doubleFree (addr : Nat)
  | cannotMerge (prevEnd nextStart : Nat)
  deriving DecidableEq, Repr

abbrev Checked (α : Type) := Except Panic α

namespace Usize

def add (a b : Nat) : Checked Nat := if a + b < 2^64 then .ok (a + b) else .error .arithmetic

def sub (a b : Nat) : Checked Nat := if b ≤ a then .ok (a - b) else .error .arithmetic

def checkedAdd (a b : Nat) : Option Nat := if a + b < 2^64 then some (a + b) else none

/-- Bitwise complement of a `usize`. -/
def not (a : Nat) : Nat := 2^64 - 1 - a

theorem add_ok {a b : Nat} (h : a + b < 2^64) : add a b = .ok (a + b) := if_pos h

theorem sub_ok {a b : Nat} (h : b ≤ a) : sub a b = .ok (a - b) := if_pos h

/-- Masking with the complement of `2^k - 1` rounds down to a multiple of `2^k`. -/
theorem and_not_mask {x k : Nat} (hx : x < 2^64) (hk : k ≤ 64) :
    x &&& not (2^k - 1) = x / 2^k * 2^k := by
  have hp : 2^k ≤ 2^64 := Nat.pow_le_pow_right (by decide) hk
  have hpos : 0 < 2^k := Nat.two_pow_pos k
  apply Nat.eq_of_testBit_eq
  intro i
  have hn : not (2^k - 1) = 2^64 - ((2^k - 1) + 1) := by unfold not; omega
  rw [Nat.testBit_and,hn,Nat.testBit_two_pow_sub_succ (by omega),Nat.testBit_two_pow_sub_one,
    Nat.testBit_mul_two_pow,Nat.testBit_div_two_pow]
  by_cases hi : k ≤ i
  · by_cases h64 : i < 64
    · simp [hi, h64, Nat.not_lt.mpr hi, Nat.sub_add_cancel hi]
    · have hz : x.testBit i = false :=
        Nat.testBit_lt_two_pow (hx.trans_le (Nat.pow_le_pow_right (by decide) (by omega)))
      simp [hz, Nat.sub_add_cancel hi]
  · simp [hi, Nat.lt_of_not_le hi]

end Usize

/-- `(addr + align - 1) & !(align - 1)`. -/
def alignUp (addr align : Nat) : Checked Nat := do
  let top ← Usize.add addr align
  let top ← Usize.sub top 1
  let mask ← Usize.sub align 1
  return top &&& Usize.not mask

/-- The multiple of `n` at or above `x`. -/
def roundUp (x n : Nat) : Nat := (x + n - 1) / n * n

theorem roundUp_dvd (x n : Nat) : n ∣ roundUp x n := Dvd.intro_left _ rfl

theorem le_roundUp {x n : Nat} (hn : 0 < n) : x ≤ roundUp x n := by
  have h1 := Nat.div_add_mod (x + n - 1) n
  have h2 := Nat.mod_lt (x + n - 1) hn
  rw [Nat.mul_comm] at h1
  unfold roundUp
  omega

theorem roundUp_lt {x n : Nat} (hn : 0 < n) : roundUp x n < x + n := by
  have h := Nat.div_mul_le_self (x + n - 1) n
  unfold roundUp
  omega

theorem roundUp_le {x n m : Nat} (hn : 0 < n) (hm : n ∣ m) (hx : x ≤ m) : roundUp x n ≤ m := by
  obtain ⟨q,rfl⟩ := hm
  obtain ⟨p,hp⟩ := roundUp_dvd x n
  have hlt := roundUp_lt (x := x) hn
  rw [hp] at hlt ⊢
  have hlt' : n * p < n * (q + 1) := by rw [Nat.mul_add,Nat.mul_one]; omega
  have : p < q + 1 := Nat.lt_of_mul_lt_mul_left hlt'
  exact Nat.mul_le_mul_left n (by omega)

theorem roundUp_of_dvd {x n : Nat} (hn : 0 < n) (hx : n ∣ x) : roundUp x n = x :=
  le_antisymm (roundUp_le hn hx le_rfl) (le_roundUp hn)

/-- For a power of two `alignUp` rounds up, or trips the overflow check. -/
theorem alignUp_pow (addr k : Nat) (hk : k ≤ 63) :
    alignUp addr (2^k) = if addr + 2^k < 2^64 then .ok (roundUp addr (2^k)) else .error .arithmetic := by
  have hpos : 0 < 2^k := Nat.two_pow_pos k
  unfold alignUp Usize.add
  split
  · rename_i h
    have hmask := Usize.and_not_mask (x := addr + 2^k - 1) (k := k) (by omega) (by omega)
    simp only [bind, Except.bind, Usize.sub_ok (show 1 ≤ addr + 2^k by omega),
      Usize.sub_ok (show 1 ≤ 2^k by omega), hmask, roundUp]
    rfl
  · rfl

/-- A layout as `Layout::from_size_align` admits it: the size rounded up to the
alignment stays within `isize::MAX`. -/
structure Layout where
  size : Nat
  align : Nat
  align_pow : align.isPowerOfTwo
  size_le : size + align ≤ 2^63
  deriving DecidableEq

namespace Layout

def fromSizeAlign (size align : Nat) : Option Layout :=
  if h : align.isPowerOfTwo ∧ size + align ≤ 2^63 then some ⟨size,align,h.1,h.2⟩ else none

/-- The same size with at least the given alignment. -/
def alignTo (l : Layout) (align : Nat) : Option Layout := fromSizeAlign l.size (max l.align align)

theorem align_exp (l : Layout) : ∃ k, l.align = 2^k ∧ k ≤ 63 := by
  obtain ⟨k,hk⟩ := l.align_pow
  refine ⟨k,hk,?_⟩
  have h := l.size_le
  rw [hk] at h
  exact (Nat.pow_le_pow_iff_right (by decide : 1 < 2)).mp (show 2^k ≤ 2^63 by omega)

theorem align_pos (l : Layout) : 0 < l.align := Nat.pos_of_isPowerOfTwo l.align_pow

private theorem pad_le (l : Layout) : roundUp l.size l.align + l.align ≤ 2^63 := by
  obtain ⟨k,hk,hk63⟩ := l.align_exp
  have hd : l.align ∣ 2^63 - l.align := by
    rw [hk]
    exact Nat.dvd_sub (Nat.pow_dvd_pow 2 hk63) (dvd_refl _)
  have hs := l.size_le
  have := roundUp_le l.align_pos hd (show l.size ≤ 2^63 - l.align by omega)
  omega

/-- The size rounded up to the alignment. -/
def padToAlign (l : Layout) : Layout := ⟨roundUp l.size l.align,l.align,l.align_pow,l.pad_le⟩

theorem alignTo_eq_some {l m : Layout} {a : Nat} (h : l.alignTo a = some m) :
    m.size = l.size ∧ m.align = max l.align a := by
  unfold alignTo fromSizeAlign at h
  split at h
  · cases h
    exact ⟨rfl,rfl⟩
  · cases h

end Layout

end HeineOS
