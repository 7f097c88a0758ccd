import Mathlib.Data.List.Basic
import Mathlib.Tactic.Common

/-! Circular buffers: the window of some cells from an index on, which is what a queue in such a buffer holds. -/
namespace HeineOS.Lib.Ring
variable {α : Type} {buffer : List α} {start n : Nat}

/-- The `n` cells from `start` on, around the end of the buffer. -/
def window (buffer : List α) (start n : Nat) : List α :=
  (List.range n).filterMap fun i => buffer[(start + i) % buffer.length]?

@[simp] theorem window_zero : window buffer start 0 = [] := rfl

theorem window_succ {x : α} (h : buffer[(start + n) % buffer.length]? = some x) :
    window buffer start (n + 1) = window buffer start n ++ [x] := by
  rw [window,List.range_succ,List.filterMap_append]
  simp only [List.filterMap_cons, h, List.filterMap_nil]
  rfl

theorem window_cons {x : α} (h : buffer[start % buffer.length]? = some x) :
    window buffer start (n + 1) = x :: window buffer ((start + 1) % buffer.length) n := by
  rw [window,List.range_succ_eq_map,List.filterMap_cons]
  simp only [Nat.add_zero, h, List.filterMap_map]
  congr 1
  apply List.filterMap_congr
  intro i _
  change buffer[(start + (i + 1)) % buffer.length]? = buffer[((start + 1) % buffer.length + i) % buffer.length]?
  rw [Nat.mod_add_mod,Nat.add_assoc,Nat.add_comm 1 i]

theorem length_window (hb : 0 < buffer.length) : (window buffer start n).length = n := by
  induction n with
  | zero => rfl
  | succ n ih =>
    have hlt := Nat.mod_lt (start + n) hb
    rw [window_succ (List.getElem?_eq_getElem hlt),List.length_append,ih]
    rfl

/-- Different cells of a window that fits into the buffer are different cells of the buffer. -/
theorem mod_ne_mod {i k len : Nat} (hi : i < k) (hk : k < i + len) (start : Nat) :
    (start + i) % len ≠ (start + k) % len := by
  intro he
  have hd := Nat.sub_mod_eq_zero_of_mod_eq he.symm
  rw [Nat.add_sub_add_left,Nat.mod_eq_of_lt (by omega)] at hd
  omega

/-- A cell outside of the window is written. -/
theorem window_set {k : Nat} (hk : n ≤ k) (hlen : k < buffer.length) (x : α) :
    window (buffer.set ((start + k) % buffer.length) x) start n = window buffer start n := by
  simp only [window, List.length_set]
  apply List.filterMap_congr
  intro i hi
  have hi := List.mem_range.mp hi
  exact List.getElem?_set_ne (mod_ne_mod (by omega) (by omega) start).symm

/-- The cell behind the window is written and the window grows. -/
theorem window_push (hn : n < buffer.length) (x : α) :
    window (buffer.set ((start + n) % buffer.length) x) start (n + 1) = window buffer start n ++ [x] := by
  have hlt := Nat.mod_lt (start + n) (by omega : 0 < buffer.length)
  have hcell : (buffer.set ((start + n) % buffer.length) x)[(start + n) %
      (buffer.set ((start + n) % buffer.length) x).length]? = some x := by
    rw [List.length_set]
    exact List.getElem?_set_self hlt
  rw [window_succ hcell,window_set (Nat.le_refl n) hn]

end HeineOS.Lib.Ring
