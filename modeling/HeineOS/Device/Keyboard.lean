import HeineOS.Device.Key

/-! The PS/2 keyboard driver: bytes of the controller are gathered into key events, with the prefix byte, the modifiers
and the locks as the state between them. -/
namespace HeineOS

inductive Led where
  | scrollLock | numLock | capsLock
  deriving DecidableEq, Repr

structure Keyboard where
  prefixByte : UInt8
  gather : KeyEvent
  leds : Flags Led

namespace Keyboard

def NORMAL_TAB : List UInt8 := [
  0, 0, 49, 50, 51, 52, 53, 54, 55, 56, 57, 48, 225, 39, 8, 0, 113, 119, 101, 114, 116, 122, 117, 105, 111,
  112, 129, 43, 13, 0, 97, 115, 100, 102, 103, 104, 106, 107, 108, 148, 132, 94, 0, 35, 121, 120, 99, 118, 98,
  110, 109, 44, 46, 45, 0, 42, 0, 32, 0, 0, 0, 0, 0, 0, 0, 0, 0, 0, 0, 0, 0, 0, 0, 0, 45, 0, 0, 0, 43, 0, 0, 0,
  0, 0, 0, 0, 60, 0, 0, 0, 0, 0]

def SHIFT_TAB : List UInt8 := [
  0, 0, 33, 34, 21, 36, 37, 38, 47, 40, 41, 61, 63, 96, 0, 0, 81, 87, 69, 82, 84, 90, 85, 73, 79, 80, 154, 42,
  0, 0, 65, 83, 68, 70, 71, 72, 74, 75, 76, 153, 142, 248, 0, 39, 89, 88, 67, 86, 66, 78, 77, 59, 58, 95, 0, 0,
  0, 32, 0, 0, 0, 0, 0, 0, 0, 0, 0, 0, 0, 0, 0, 0, 0, 0, 0, 0, 0, 0, 0, 0, 0, 0, 0, 0, 0, 0, 62, 0, 0, 0, 0, 0]

def ALT_TAB : List UInt8 := [
  0, 0, 0, 253, 0, 0, 0, 0, 123, 91, 93, 125, 92, 0, 0, 0, 64, 0, 0, 0, 0, 0, 0, 0, 0, 0, 0, 126, 0, 0, 0, 0,
  0, 0, 0, 0, 0, 0, 0, 0, 0, 0, 0, 0, 0, 0, 0, 0, 0, 0, 230, 0, 0, 0, 0, 0, 0, 0, 0, 0, 0, 0, 0, 0, 0, 0, 0, 0,
  0, 0, 0, 0, 0, 0, 0, 0, 0, 0, 0, 0, 0, 0, 0, 0, 0, 0, 124, 0, 0, 0, 0, 0]

def ASC_NUM_TAB : List UInt8 := [55, 56, 57, 45, 52, 53, 54, 43, 49, 50, 51, 48, 44]

def SCAN_NUM_TAB : List UInt8 := [8, 9, 10, 53, 5, 6, 7, 27, 2, 3, 4, 11, 51]

def BREAK_BIT : UInt8 := 0x80
def PREFIX1 : UInt8 := 0xe0
def PREFIX2 : UInt8 := 0xe1

def new : Keyboard := ⟨0,KeyEvent.new,Flags.empty⟩

/-- The controller acknowledges both bytes of the command. -/
def setLed (k : Keyboard) (led : Led) (on : Bool) : Keyboard := { k with leds := k.leds.set led on }

/-- The table that the modifiers select, and its ascii code and scancode for a key; `none` when the index is out of
range. -/
def translation (code prefixByte : UInt8) (modifiers : KeyModifiers) : Option (UInt8 × UInt8) :=
  if modifiers.contains .numLock ∧ prefixByte = 0 ∧ code ≥ 71 ∧ code ≤ 83 then do
    let ascii ← ASC_NUM_TAB[(code - 71).toNat]?
    let scancode ← SCAN_NUM_TAB[(code - 71).toNat]?
    return (ascii,scancode)
  else if modifiers.contains .altRight then ALT_TAB[code.toNat]?.map (·,code)
  else if modifiers.contains .shift then SHIFT_TAB[code.toNat]?.map (·,code)
  else if modifiers.contains .capsLock then
    if (code ≥ 16 ∧ code ≤ 26) ∨ (code ≥ 30 ∧ code ≤ 40) ∨ (code ≥ 44 ∧ code ≤ 50) then
      SHIFT_TAB[code.toNat]?.map (·,code)
    else NORMAL_TAB[code.toNat]?.map (·,code)
  else NORMAL_TAB[code.toNat]?.map (·,code)

def parseAsciiCode (code prefixByte : UInt8) (key : KeyEvent) : Option KeyEvent :=
  (translation code prefixByte key.modifiers).map fun (ascii,scancode) => (key.setAscii ascii).setScancode scancode

/-- The key is complete: its code is parsed into the gathered event. -/
def completeKey (k : Keyboard) (code prefixByte : UInt8) (pressed : Bool) : Option (Keyboard × Bool) :=
  (parseAsciiCode code prefixByte k.gather).map fun gather => ({ k with gather := gather.setPressed pressed },true)

/-- The branch for a code that had the break bit. -/
def decodeBreak (k : Keyboard) (code prefixByte : UInt8) : Option (Keyboard × Bool) :=
  if code = 42 ∨ code = 54 then some ({ k with gather := k.gather.removeModifiers .shift },false)
  else if code = 56 then
    if prefixByte = PREFIX1 then some ({ k with gather := k.gather.removeModifiers .altRight },false)
    else some ({ k with gather := k.gather.removeModifiers .altLeft },false)
  else if code = 29 then
    if prefixByte = PREFIX1 then some ({ k with gather := k.gather.removeModifiers .ctrlRight },false)
    else some ({ k with gather := k.gather.removeModifiers .ctrlLeft },false)
  else if code = 58 ∨ code = 70 then some (k,false)
  else if code = 69 then
    if k.gather.modifiers.contains .ctrlLeft then k.completeKey code prefixByte false else some (k,false)
  else k.completeKey code prefixByte false

/-- The key of a lock toggles its modifier and shows it on its LED. -/
def toggleLock (k : Keyboard) (flag : KeyModifier) (led : Led) : Keyboard :=
  let k := { k with gather := k.gather.toggleModifiers flag }
  k.setLed led (k.gather.modifiers.contains flag)

/-- The branch for a code without the break bit. -/
def decodeMake (k : Keyboard) (code prefixByte : UInt8) : Option (Keyboard × Bool) :=
  if code = 42 ∨ code = 54 then some ({ k with gather := k.gather.insertModifiers .shift },false)
  else if code = 56 then
    if prefixByte = PREFIX1 then some ({ k with gather := k.gather.insertModifiers .altRight },false)
    else some ({ k with gather := k.gather.insertModifiers .altLeft },false)
  else if code = 29 then
    if prefixByte = PREFIX1 then some ({ k with gather := k.gather.insertModifiers .ctrlRight },false)
    else some ({ k with gather := k.gather.insertModifiers .ctrlLeft },false)
  else if code = 58 then some (k.toggleLock .capsLock .capsLock,false)
  else if code = 70 then some (k.toggleLock .scrollLock .scrollLock,false)
  else if code = 69 then
    if k.gather.modifiers.contains .ctrlLeft then k.completeKey code prefixByte true
    else some (k.toggleLock .numLock .numLock,false)
  else k.completeKey code prefixByte true

/-- The state after a byte, and whether it completed a key event; `none` when the index into a table panics. -/
def decodeByte (k : Keyboard) (code : UInt8) : Option (Keyboard × Bool) :=
  if code = PREFIX1 ∨ code = PREFIX2 then some ({ k with prefixByte := code },false)
  else
    let prefixByte := k.prefixByte
    let k := { k with prefixByte := 0 }
    if code &&& BREAK_BIT ≠ 0 then k.decodeBreak (code &&& ~~~ BREAK_BIT) prefixByte
    else k.decodeMake code prefixByte

/-- The bytes of the controller, one after another. -/
def decodeBytes (k : Keyboard) (bytes : List UInt8) : Option Keyboard :=
  bytes.foldlM (fun k code => (k.decodeByte code).map Prod.fst) k

end Keyboard

end HeineOS
