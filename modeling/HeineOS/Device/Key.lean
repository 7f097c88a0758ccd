import Mathlib.Logic.Function.Basic

/-! Key events: an ascii character, a scancode, the modifiers in force and whether the key is pressed. -/
namespace HeineOS

/-- A value of a `bitflags` type: which of its flags are set. -/
abbrev Flags (F : Type) := F → Bool

namespace Flags
variable {F : Type} [DecidableEq F]

def empty : Flags F := fun _ => false

def contains (flags : Flags F) (flag : F) : Bool := flags flag

def set (flags : Flags F) (flag : F) (on : Bool) : Flags F := Function.update flags flag on

def insert (flags : Flags F) (flag : F) : Flags F := flags.set flag true

def remove (flags : Flags F) (flag : F) : Flags F := flags.set flag false

def toggle (flags : Flags F) (flag : F) : Flags F := flags.set flag (!flags.contains flag)

end Flags

inductive KeyModifier where
  | shift | altLeft | altRight | ctrlLeft | ctrlRight | capsLock | numLock | scrollLock
  deriving DecidableEq, Repr

abbrev KeyModifiers := Flags KeyModifier

inductive Scancode where
  | escape | one | two | three | four | five | six | seven | eight | nine | zero | q | w | e | r | t | z | u
  | i | o | p | a | s | d | f | g | h | j | k | l | y | x | c | v | b | n | m | plus | minus | enter | space
  | up | down | left | right | home | endKey | pageUp | pageDown | insert | del | tab | backspace | f1 | f2
  | f3 | f4 | f5 | f6 | f7 | f8 | f9 | f10 | f11 | f12 | metaKey
  deriving DecidableEq, Repr

def Scancode.tryFrom (value : UInt8) : Option Scancode :=
  List.lookup value [
    (0x01,.escape), (0x02,.one), (0x03,.two), (0x04,.three), (0x05,.four), (0x06,.five), (0x07,.six),
    (0x08,.seven), (0x09,.eight), (0x0a,.nine), (0x0b,.zero), (0x0f,.tab), (0x0e,.backspace), (0x10,.q),
    (0x11,.w), (0x12,.e), (0x13,.r), (0x14,.t), (0x15,.z), (0x16,.u), (0x17,.i), (0x18,.o), (0x19,.p),
    (0x1b,.plus), (0x1c,.enter), (0x1e,.a), (0x1f,.s), (0x20,.d), (0x21,.f), (0x22,.g), (0x23,.h), (0x24,.j),
    (0x25,.k), (0x26,.l), (0x2c,.y), (0x2d,.x), (0x2e,.c), (0x2f,.v), (0x30,.b), (0x31,.n), (0x32,.m),
    (0x35,.minus), (0x39,.space), (0x47,.home), (0x48,.up), (0x4b,.left), (0x4d,.right), (0x4f,.endKey),
    (0x49,.pageUp), (0x50,.down), (0x51,.pageDown), (0x52,.insert), (0x53,.del), (0x3b,.f1), (0x3c,.f2),
    (0x3d,.f3), (0x3e,.f4), (0x3f,.f5), (0x40,.f6), (0x41,.f7), (0x42,.f8), (0x43,.f9), (0x44,.f10),
    (0x57,.f11), (0x58,.f12), (0x5b,.metaKey)]

structure KeyEvent where
  ascii : Option Char
  scancode : Option Scancode
  modifiers : KeyModifiers
  pressed : Bool

namespace KeyEvent

def new : KeyEvent := ⟨none,none,Flags.empty,false⟩

/-- `char::from_u32`. -/
def charFromU32 (value : UInt32) : Option Char := if h : value.isValidChar then some ⟨value,h⟩ else none

/-- A code of 0 leaves the character of the last key in place. -/
def setAscii (key : KeyEvent) (ascii : UInt8) : KeyEvent :=
  if ascii ≠ 0 then { key with ascii := charFromU32 ascii.toUInt32 } else key

def setScancode (key : KeyEvent) (scancode : UInt8) : KeyEvent := { key with scancode := Scancode.tryFrom scancode }

def insertModifiers (key : KeyEvent) (flag : KeyModifier) : KeyEvent :=
  { key with modifiers := key.modifiers.insert flag }

def removeModifiers (key : KeyEvent) (flag : KeyModifier) : KeyEvent :=
  { key with modifiers := key.modifiers.remove flag }

def toggleModifiers (key : KeyEvent) (flag : KeyModifier) : KeyEvent :=
  { key with modifiers := key.modifiers.toggle flag }

def setPressed (key : KeyEvent) (pressed : Bool) : KeyEvent := { key with pressed := pressed }

end KeyEvent

end HeineOS
