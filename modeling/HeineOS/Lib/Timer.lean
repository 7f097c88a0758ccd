import Mathlib.Data.Nat.Notation
import Mathlib.Logic.Function.Basic

/-! A programmable interval timer of the 8254 kind: three counters that are loaded byte by byte over a control port
and a data port each. -/
namespace HeineOS.Lib

/-- How the bytes written to a data port make up the count. -/
inductive Access where
  | latch
  | low
  | high
  | lowHigh
  deriving DecidableEq, Repr

/-- A counter: its access and operating mode, the low byte that waits for its high byte, and the count last loaded. -/
structure Counter where
  access : Access
  mode : Nat
  half : Option UInt8
  count : Nat

namespace Counter

/-- A control word for the counter: bits 4 and 5 select the access, bits 1 to 3 the mode. -/
def control (c : Counter) (word : UInt8) : Counter :=
  match word.toNat / 16 % 4 with
  | 0 => c
  | 1 => { c with access := .low, mode := word.toNat / 2 % 8, half := none }
  | 2 => { c with access := .high, mode := word.toNat / 2 % 8, half := none }
  | _ => { c with access := .lowHigh, mode := word.toNat / 2 % 8, half := none }

/-- A byte at the data port. -/
def data (c : Counter) (byte : UInt8) : Counter :=
  match c.access,c.half with
  | .latch,_ => c
  | .low,_ => { c with count := byte.toNat }
  | .high,_ => { c with count := 256 * byte.toNat }
  | .lowHigh,none => { c with half := some byte }
  | .lowHigh,some low => { c with half := none, count := low.toNat + 256 * byte.toNat }

/-- The ticks of one period. A count of 0 stands for the largest one. -/
def divisor (c : Counter) : Nat := if c.count = 0 then 65536 else c.count

end Counter

/-- The counters of a chip; a control word names its counter in bits 6 and 7. -/
abbrev Timer := Nat → Counter

namespace Timer

def outbControl (t : Timer) (word : UInt8) : Timer :=
  if word.toNat / 64 < 3 then Function.update t (word.toNat / 64) ((t (word.toNat / 64)).control word) else t

def outbData (t : Timer) (i : Nat) (byte : UInt8) : Timer := Function.update t i ((t i).data byte)

/-- A control word for both bytes and the two bytes of a count. -/
def load (t : Timer) (word : UInt8) (low high : UInt8) : Timer :=
  ((t.outbControl word).outbData (word.toNat / 64) low).outbData (word.toNat / 64) high

variable {t : Timer} {word low high : UInt8}

/-- The counter that is named is loaded. -/
theorem load_self (hcounter : word.toNat / 64 < 3) (haccess : word.toNat / 16 % 4 = 3) :
    t.load word low high (word.toNat / 64) = ⟨.lowHigh,word.toNat / 2 % 8,none,low.toNat + 256 * high.toNat⟩ := by
  rw [load,outbData,outbData,outbControl,if_pos hcounter]
  simp only [Function.update_self, Counter.control, haccess, Counter.data]

/-- The other ones are left alone. -/
theorem load_ne {i : Nat} (hne : i ≠ word.toNat / 64) : t.load word low high i = t i := by
  rw [load,outbData,outbData,Function.update_of_ne hne,Function.update_of_ne hne,outbControl]
  split
  · exact Function.update_of_ne hne _ _
  · rfl

/-- The two bytes of a number make it up again, modulo 65536. -/
theorem bytes_eq (n : Nat) : (UInt8.ofNat (n % 256)).toNat + 256 * (UInt8.ofNat (n / 256)).toNat = n % 65536 := by
  have hlow : (UInt8.ofNat (n % 256)).toNat = n % 256 := UInt8.toNat_ofNat_of_lt' (Nat.mod_lt _ (by decide))
  have hhigh : (UInt8.ofNat (n / 256)).toNat = n / 256 % 256 := UInt8.toNat_ofNat' ..
  rw [hlow,hhigh]
  omega

end Timer

end HeineOS.Lib
