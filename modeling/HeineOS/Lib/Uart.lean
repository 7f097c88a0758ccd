import Mathlib.Tactic.Common

/-! A serial port of the 16550 kind: its registers, and the bytes that it puts on the line. -/
namespace HeineOS.Lib

/-- How a byte goes over the line: the divisor of the clock and the line control register. -/
structure Framing where
  divisor : Nat
  control : UInt8
  deriving DecidableEq, Repr

structure Uart where
  lineControl : UInt8
  interrupts : UInt8
  divisorLow : UInt8
  divisorHigh : UInt8
  ready : Bool
  sent : List (Framing × UInt8)
  deriving DecidableEq, Repr

namespace Uart
variable (u : Uart)

/-- The first two registers stand for the divisor while this bit is set. -/
def divisorLatch : Bool := u.lineControl &&& 0x80 ≠ 0

def framing : Framing := ⟨u.divisorLow.toNat + 256 * u.divisorHigh.toNat,u.lineControl⟩

/-- A byte to send takes the place of the last one if that is still waiting. -/
def transmit (v : UInt8) : Uart :=
  { u with ready := false, sent := (if u.ready then u.sent else u.sent.dropLast) ++ [(u.framing,v)] }

def outb (register : Nat) (v : UInt8) : Uart :=
  match register with
  | 0 => if u.divisorLatch then { u with divisorLow := v } else u.transmit v
  | 1 => if u.divisorLatch then { u with divisorHigh := v } else { u with interrupts := v }
  | 3 => { u with lineControl := v }
  | _ => u

/-- The line status says whether the transmitter takes a byte; what else is read depends on the outside. -/
def inb (register : Nat) (other : UInt8) : UInt8 :=
  match register with
  | 5 => if u.ready then other ||| 0x20 else other &&& ~~~0x20
  | _ => other

/-- The waiting byte moves on. -/
def drain : Uart := { u with ready := true }

theorem inb_ready (other : UInt8) : u.inb 5 other &&& 0x20 ≠ 0 ↔ u.ready = true := by
  have hset : ∀ x : BitVec 8, (x ||| 0x20#8) &&& 0x20#8 ≠ 0 ∧ (x &&& ~~~0x20#8) &&& 0x20#8 = 0 := by decide
  obtain ⟨h1,h2⟩ := hset other.toBitVec
  cases hready : u.ready with
  | true =>
    refine iff_of_true (fun habs => h1 ?_) rfl
    simpa [inb, hready] using congrArg UInt8.toBitVec habs
  | false =>
    refine iff_of_false (fun hne => hne ?_) Bool.false_ne_true
    apply UInt8.toBitVec_inj.mp
    simpa [inb, hready] using h2

end Uart

end HeineOS.Lib
