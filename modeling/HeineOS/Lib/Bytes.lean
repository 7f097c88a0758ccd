import Mathlib.Tactic.Ring

/-! Byte-addressed memory with little-endian words of any number of bytes. -/
namespace HeineOS.Lib

abbrev Bytes := Nat → UInt8

namespace Bytes

/-- The `n`-byte little-endian number at `a`. -/
def load (m : Bytes) (a : Nat) : Nat → Nat
  | 0 => 0
  | n + 1 => (m a).toNat + 256 * load m (a + 1) n

/-- Write the low `n` bytes of `v` at `a`. -/
def store (m : Bytes) (a n v : Nat) : Bytes :=
  fun x => if a ≤ x ∧ x < a + n then UInt8.ofNat (v / 256^(x - a)) else m x

/-- `n` bytes of value `v` from `a` on. -/
def fill (m : Bytes) (a : Nat) (v : UInt8) (n : Nat) : Bytes :=
  fun x => if a ≤ x ∧ x < a + n then v else m x

/-- `n` bytes from `src` to `dst`, as they were before; the ranges may overlap. -/
def copy (m : Bytes) (src dst n : Nat) : Bytes :=
  fun x => if dst ≤ x ∧ x < dst + n then m (src + (x - dst)) else m x

theorem store_of_not_mem (m : Bytes) {a n x : Nat} (v : Nat) (h : ¬ (a ≤ x ∧ x < a + n)) :
    m.store a n v x = m x := if_neg h

theorem fill_of_mem (m : Bytes) {a n x : Nat} (v : UInt8) (h : a ≤ x ∧ x < a + n) : m.fill a v n x = v := if_pos h

theorem fill_of_not_mem (m : Bytes) {a n x : Nat} (v : UInt8) (h : ¬ (a ≤ x ∧ x < a + n)) :
    m.fill a v n x = m x := if_neg h

theorem copy_of_mem (m : Bytes) {src dst n x : Nat} (h : dst ≤ x ∧ x < dst + n) :
    m.copy src dst n x = m (src + (x - dst)) := if_pos h

theorem copy_of_not_mem (m : Bytes) {src dst n x : Nat} (h : ¬ (dst ≤ x ∧ x < dst + n)) :
    m.copy src dst n x = m x := if_neg h

theorem load_congr {m m' : Bytes} {a n : Nat} (h : ∀ x, a ≤ x → x < a + n → m x = m' x) :
    m.load a n = m'.load a n := by
  induction n generalizing a with
  | zero => rfl
  | succ n ih =>
    rw [load,load,h a le_rfl (by omega),ih (fun x h1 h2 => h x (by omega) (by omega))]

theorem load_store_apart (m : Bytes) {a b n k : Nat} (v : Nat) (h : a + n ≤ b ∨ b + k ≤ a) :
    (m.store b k v).load a n = m.load a n :=
  load_congr fun _ _ _ => store_of_not_mem m v (by omega)

theorem load_store (m : Bytes) (a n v : Nat) : (m.store a n v).load a n = v % 256^n := by
  induction n generalizing m a v with
  | zero => rw [load,pow_zero,Nat.mod_one]
  | succ n ih =>
    have htail : (m.store a (n+1) v).load (a+1) n = (m.store (a+1) n (v / 256)).load (a+1) n := by
      apply load_congr
      intro x h1 h2
      rw [store,store,if_pos (by omega),if_pos (by omega),show x - a = (x - (a + 1)) + 1 by omega,
        pow_succ',Nat.div_div_eq_div_mul]
    have hhead : (m.store a (n+1) v a).toNat = v % 256 := by
      rw [store,if_pos (by omega),Nat.sub_self,pow_zero,Nat.div_one]
      simp
    rw [load,htail,ih,hhead,pow_succ',Nat.mod_mul]

theorem load_lt (m : Bytes) (a n : Nat) : m.load a n < 256^n := by
  induction n generalizing a with
  | zero => exact Nat.one_pos
  | succ n ih =>
    have h1 := ih (a + 1)
    have h2 := (m a).toNat_lt
    rw [load,pow_succ']
    omega

theorem load_store_of_lt (m : Bytes) {a n v : Nat} (h : v < 256^n) : (m.store a n v).load a n = v := by
  rw [load_store,Nat.mod_eq_of_lt h]

end Bytes

end HeineOS.Lib
