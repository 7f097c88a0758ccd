import Mathlib.Data.BitVec
import Mathlib.Tactic.Common

/-! Two cascaded 8259 interrupt controllers: their initialization sequence, their masks and the vectors that they
give to the processor. -/
namespace HeineOS.Lib

/-- The word that a chip expects next on its data port; `ready` for the mask. -/
inductive Phase where
  | ready
  | offset
  | cascade
  | mode
  deriving DecidableEq, Repr

structure Chip where
  phase : Phase
  needsMode : Bool
  single : Bool
  offset : BitVec 8
  cascade : BitVec 8
  mode : BitVec 8
  mask : BitVec 8
  deriving DecidableEq, Repr

namespace Chip

/-- A write to the command port; bit 4 starts the initialization. -/
def command (c : Chip) (v : BitVec 8) : Chip :=
  if v.getLsbD 4 then
    { c with phase := .offset, needsMode := v.getLsbD 0, single := v.getLsbD 1, mode := 0, mask := 0 }
  else c

def afterCascade (c : Chip) : Phase := if c.needsMode then .mode else .ready

def data (c : Chip) (v : BitVec 8) : Chip :=
  match c.phase with
  | .ready => { c with mask := v }
  | .offset => { c with offset := v &&& 0xf8, phase := if c.single then c.afterCascade else .cascade }
  | .cascade => { c with cascade := v, phase := c.afterCascade }
  | .mode => { c with mode := v, phase := .ready }

def Forwards (c : Chip) (line : Nat) : Prop := c.phase = .ready ∧ c.mask.getLsbD line = false

instance (c : Chip) (line : Nat) : Decidable (c.Forwards line) := inferInstanceAs (Decidable (_ ∧ _))

end Chip

structure Controller where
  master : Chip
  slave : Chip
  deriving DecidableEq, Repr

namespace Controller

/-- A write to a port of the two chips; other ports are none of theirs. -/
def outb (p : Controller) (port : BitVec 16) (v : BitVec 8) : Controller :=
  if port = 0x20 then { p with master := p.master.command v }
  else if port = 0x21 then { p with master := p.master.data v }
  else if port = 0xa0 then { p with slave := p.slave.command v }
  else if port = 0xa1 then { p with slave := p.slave.data v }
  else p

/-- The masks can be read back at the data ports. -/
def inb (p : Controller) (port : BitVec 16) : BitVec 8 :=
  if port = 0x21 then p.master.mask else if port = 0xa1 then p.slave.mask else 0

/-- The vector that a request on one of the sixteen lines is forwarded with. A line of the first chip that the
second one is connected to belongs to no device. -/
def vector (p : Controller) (line : Nat) : Option Nat :=
  if line < 8 then
    if p.master.cascade.getLsbD line then none
    else if p.master.Forwards line then some (p.master.offset.toNat + line) else none
  else
    let slot := p.slave.cascade.toNat % 8
    if p.master.cascade.getLsbD slot ∧ p.master.Forwards slot ∧ p.slave.Forwards (line - 8) then
      some (p.slave.offset.toNat + (line - 8))
    else none

end Controller

theorem getLsbD_one_shiftLeft {w : Nat} (i j : Nat) : ((1#w) <<< i).getLsbD j = decide (j = i ∧ i < w) := by
  rw [BitVec.getLsbD_shiftLeft,BitVec.getLsbD_one,Bool.eq_iff_iff]
  simp only [Bool.and_eq_true, decide_eq_true_eq, Bool.not_eq_true', decide_eq_false_iff_not]
  omega

/-- Clearing one bit of a mask. -/
theorem getLsbD_clear {w : Nat} (x : BitVec w) (i j : Nat) :
    (x &&& ~~~((1#w) <<< i)).getLsbD j = (if j = i then false else x.getLsbD j) := by
  rw [BitVec.getLsbD_and,BitVec.getLsbD_not,getLsbD_one_shiftLeft]
  by_cases hj : j < w
  · by_cases h : j = i
    · subst h
      simp [hj]
    · simp [h, hj]
  · rw [BitVec.getLsbD_of_ge _ _ (Nat.le_of_not_lt hj)]
    simp

/-- Setting one bit of a mask. -/
theorem getLsbD_set {w : Nat} (x : BitVec w) {i : Nat} (hi : i < w) (j : Nat) :
    (x ||| ((1#w) <<< i)).getLsbD j = (if j = i then true else x.getLsbD j) := by
  rw [BitVec.getLsbD_or,getLsbD_one_shiftLeft]
  by_cases h : j = i
  · simp [h, hi]
  · simp [h]

end HeineOS.Lib
