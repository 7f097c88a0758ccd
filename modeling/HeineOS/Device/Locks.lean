import HeineOS.Device.Decoding

/-! The lock keys: their flags in the modifiers, the LEDs as the driver has them, and the bytes that it sends to the
keyboard to show them. -/
namespace HeineOS

namespace Led

/-- The bit of the LED in the byte sent to the keyboard. -/
def bit : Led → UInt8
  | scrollLock => 1
  | numLock => 2
  | capsLock => 4

def flag : Led → KeyModifier
  | scrollLock => .scrollLock
  | numLock => .numLock
  | capsLock => .capsLock

/-- The code of the lock key. -/
def code : Led → UInt8
  | scrollLock => 70
  | numLock => 69
  | capsLock => 58

theorem flag_injective : Function.Injective flag := by
  intro led led' h
  revert h
  cases led <;> cases led' <;> decide

theorem code_injective : Function.Injective code := by
  intro led led' h
  revert h
  cases led <;> cases led' <;> decide

theorem flag_mem (led : Led) : led.flag ∈ [KeyModifier.capsLock,.numLock,.scrollLock] := by
  cases led <;> decide

end Led

namespace Keyboard

def SET_LED : UInt8 := 0xed

/-- `leds.bits()`. -/
def ledBits (leds : Flags Led) : UInt8 :=
  (if leds.contains .scrollLock then Led.scrollLock.bit else 0) |||
  (if leds.contains .numLock then Led.numLock.bit else 0) ||| (if leds.contains .capsLock then Led.capsLock.bit else 0)

theorem ledBits_and_bit {leds : Flags Led} (led : Led) : ledBits leds &&& led.bit ≠ 0 ↔ leds.contains led = true := by
  rw [ledBits]
  cases led
  all_goals
    cases leds.contains .scrollLock <;> cases leds.contains .numLock <;> cases leds.contains .capsLock <;> decide

/-- A keyboard with the bytes sent to its data port. -/
structure Wired extends Keyboard where
  sent : List UInt8

namespace Wired

def new : Wired := ⟨Keyboard.new,[]⟩

/-- The command and its parameter are both acknowledged. -/
def setLed (k : Wired) (led : Led) (on : Bool) : Wired :=
  let keyboard := k.toKeyboard.setLed led on
  ⟨keyboard,k.sent ++ [SET_LED,ledBits keyboard.leds]⟩

def toggleLock (k : Wired) (flag : KeyModifier) (led : Led) : Wired :=
  let k := { k with gather := k.gather.toggleModifiers flag }
  k.setLed led (k.gather.modifiers.contains flag)

/-- Only the branches of the lock keys send bytes. -/
def decodeMake (k : Wired) (code prefixByte : UInt8) : Option (Wired × Bool) :=
  if code = 58 then some (k.toggleLock .capsLock .capsLock,false)
  else if code = 70 then some (k.toggleLock .scrollLock .scrollLock,false)
  else if code = 69 ∧ k.gather.modifiers.contains .ctrlLeft = false then
    some (k.toggleLock .numLock .numLock,false)
  else (k.toKeyboard.decodeMake code prefixByte).map fun (keyboard,flag) => (⟨keyboard,k.sent⟩,flag)

def decodeByte (k : Wired) (code : UInt8) : Option (Wired × Bool) :=
  if code = PREFIX1 ∨ code = PREFIX2 then some ({ k with prefixByte := code },false)
  else
    let prefixByte := k.prefixByte
    let k := { k with prefixByte := 0 }
    if code &&& BREAK_BIT ≠ 0 then
      (k.toKeyboard.decodeBreak (code &&& ~~~ BREAK_BIT) prefixByte).map fun (keyboard,flag) =>
        (⟨keyboard,k.sent⟩,flag)
    else k.decodeMake code prefixByte

def decodeBytes (k : Wired) (bytes : List UInt8) : Option Wired :=
  bytes.foldlM (fun k code => (k.decodeByte code).map Prod.fst) k

end Wired

/-- What a keyboard makes of the bytes: the LEDs it shows, and whether the next byte is for them. -/
structure LedPanel where
  leds : UInt8
  commanded : Bool

def LedPanel.receive (panel : LedPanel) (byte : UInt8) : LedPanel :=
  if panel.commanded then ⟨byte,false⟩
  else if byte = SET_LED then ⟨panel.leds,true⟩
  else panel

def LedPanel.receiveAll (bytes : List UInt8) : LedPanel := bytes.foldl receive ⟨0,false⟩

/-- The last LED byte of those sent, which is 0 if there is none. -/
def lastLedByte (sent : List UInt8) : UInt8 := (LedPanel.receiveAll sent).leds

/-- The byte is the make code of the lock. NumLock with the left control key is Break. -/
def Toggles (k : Keyboard) (b : UInt8) (led : Led) : Prop :=
  b = led.code ∧ (led = .numLock → k.gather.modifiers.contains .ctrlLeft = false)

instance (k : Keyboard) (b : UInt8) (led : Led) : Decidable (k.Toggles b led) := inferInstanceAs (Decidable (_ ∧ _))

/-- How many of the bytes are the make code of the lock. -/
def toggleCount (led : Led) (k : Keyboard) : List UInt8 → Nat
  | [] => 0
  | b :: bytes => (if k.Toggles b led then 1 else 0) +
      match k.decodeByte b with
      | some (k',_) => toggleCount led k' bytes
      | none => 0

/-! ### The driver without its port -/

section
variable {k : Wired} {b code p : UInt8}

private theorem decodeMake_toKeyboard :
    (k.decodeMake code p).map (fun r => (r.1.toKeyboard,r.2)) = k.toKeyboard.decodeMake code p := by
  rw [Wired.decodeMake]
  split
  · rename_i hcode
    rw [hcode]
    rfl
  split
  · rename_i hcode
    rw [hcode]
    rfl
  split
  · rename_i hcode
    obtain ⟨hcode,hctrl⟩ := hcode
    rw [hcode]
    simp [Keyboard.decodeMake, hctrl, Wired.toggleLock, Keyboard.toggleLock, Wired.setLed]
  · rw [Option.map_map]
    exact Option.map_id'

/-- The port aside, the driver decodes a byte as before. -/
theorem decodeByte_toKeyboard (k : Wired) (b : UInt8) :
    (k.decodeByte b).map (fun r => (r.1.toKeyboard,r.2)) = k.toKeyboard.decodeByte b := by
  rw [Wired.decodeByte,Keyboard.decodeByte]
  split
  · rfl
  · dsimp only
    split
    · rw [Option.map_map]
      exact Option.map_id'
    · exact decodeMake_toKeyboard

end

/-! ### One byte -/

/-- The locks are as before, in the modifiers and on the LEDs. -/
private def KeepsLocks (k k' : Keyboard) : Prop :=
  k'.leds = k.leds ∧ ∀ led : Led, k'.gather.modifiers led.flag = k.gather.modifiers led.flag

section
variable {k k' : Keyboard} {b code p : UInt8} {flag pressed : Bool}

private theorem completeKey_keepsLocks (h : k.completeKey code p pressed = some (k',flag)) : KeepsLocks k k' := by
  obtain ⟨_,hleds,hmodifiers⟩ := completeKey_frame h
  exact ⟨hleds,fun led => congrFun hmodifiers led.flag⟩

private theorem set_keepsLocks (modifier : KeyModifier) (on : Bool)
    (hmodifier : modifier ∉ [KeyModifier.capsLock,.numLock,.scrollLock]) :
    KeepsLocks k { k with gather := { k.gather with modifiers := k.gather.modifiers.set modifier on } } := by
  refine ⟨rfl,fun led => ?_⟩
  have hne : led.flag ≠ modifier := fun h => hmodifier (h ▸ led.flag_mem)
  exact Function.update_of_ne hne _ _

private theorem decodeBreak_keepsLocks (h : k.decodeBreak code p = some (k',flag)) : KeepsLocks k k' := by
  rw [decodeBreak] at h
  split at h
  · cases h
    exact set_keepsLocks .shift false (by decide)
  split at h
  · split at h
    · cases h
      exact set_keepsLocks .altRight false (by decide)
    · cases h
      exact set_keepsLocks .altLeft false (by decide)
  split at h
  · split at h
    · cases h
      exact set_keepsLocks .ctrlRight false (by decide)
    · cases h
      exact set_keepsLocks .ctrlLeft false (by decide)
  split at h
  · cases h
    exact ⟨rfl,fun _ => rfl⟩
  split at h
  · split at h
    · exact completeKey_keepsLocks h
    · cases h
      exact ⟨rfl,fun _ => rfl⟩
  · exact completeKey_keepsLocks h

private theorem decodeMake_keepsLocks (hno : ∀ led, ¬ k.Toggles code led)
    (h : k.decodeMake code p = some (k',flag)) : KeepsLocks k k' := by
  have hcaps : ¬ code = 58 := fun hcode => hno .capsLock ⟨hcode,fun h => nomatch h⟩
  have hscroll : ¬ code = 70 := fun hcode => hno .scrollLock ⟨hcode,fun h => nomatch h⟩
  rw [decodeMake,if_neg hcaps,if_neg hscroll] at h
  split at h
  · cases h
    exact set_keepsLocks .shift true (by decide)
  split at h
  · split at h
    · cases h
      exact set_keepsLocks .altRight true (by decide)
    · cases h
      exact set_keepsLocks .altLeft true (by decide)
  split at h
  · split at h
    · cases h
      exact set_keepsLocks .ctrlRight true (by decide)
    · cases h
      exact set_keepsLocks .ctrlLeft true (by decide)
  split at h
  · rename_i hnum
    split at h
    · exact completeKey_keepsLocks h
    · rename_i hctrl
      exact absurd ⟨hnum,fun _ => by simpa using hctrl⟩ (hno .numLock)
  · exact completeKey_keepsLocks h

end

section
variable {k k' : Wired} {b : UInt8} {flag : Bool}

/-- What one byte does to the locks: the code of a lock toggles it, and any other byte keeps them and sends nothing. -/
private theorem decodeByte_cases (h : k.decodeByte b = some (k',flag)) :
    (∃ led, k.Toggles b led ∧ k' = Wired.toggleLock { k with prefixByte := 0 } led.flag led) ∨
    ((∀ led, ¬ k.Toggles b led) ∧ KeepsLocks k.toKeyboard k'.toKeyboard ∧ k'.sent = k.sent) := by
  by_cases hlock : ∃ led, k.Toggles b led
  · obtain ⟨led,hcode,hctrl⟩ := hlock
    left
    refine ⟨led,⟨hcode,hctrl⟩,?_⟩
    subst hcode
    cases led with
    | scrollLock => exact (Prod.mk.inj (Option.some.inj h)).1.symm
    | capsLock => exact (Prod.mk.inj (Option.some.inj h)).1.symm
    | numLock =>
      have hclear : k.gather.modifiers.contains .ctrlLeft = false := hctrl rfl
      simp only [Wired.decodeByte, Wired.decodeMake, Led.code, hclear] at h
      exact (Prod.mk.inj (Option.some.inj h)).1.symm
  · rw [not_exists] at hlock
    right
    refine ⟨hlock,?_⟩
    rw [Wired.decodeByte] at h
    split at h
    · cases h
      exact ⟨⟨rfl,fun _ => rfl⟩,rfl⟩
    dsimp only at h
    split at h
    · rw [Option.map_eq_some_iff] at h
      obtain ⟨r,hr,hk'⟩ := h
      cases hk'
      have hkeeps : KeepsLocks _ _ := decodeBreak_keepsLocks hr
      exact ⟨hkeeps,rfl⟩
    · have hcaps : ¬ b = 58 := fun hcode => hlock .capsLock ⟨hcode,fun h => nomatch h⟩
      have hscroll : ¬ b = 70 := fun hcode => hlock .scrollLock ⟨hcode,fun h => nomatch h⟩
      have hnum : ¬ (b = 69 ∧ k.gather.modifiers.contains .ctrlLeft = false) :=
        fun hcode => hlock .numLock ⟨hcode.1,fun _ => hcode.2⟩
      rw [Wired.decodeMake,if_neg hcaps,if_neg hscroll,if_neg hnum,Option.map_eq_some_iff] at h
      obtain ⟨r,hr,hk'⟩ := h
      cases hk'
      have hother : ∀ led, ¬ Toggles { k.toKeyboard with prefixByte := 0 } b led := hlock
      have hkeeps : KeepsLocks _ _ := decodeMake_keepsLocks hother hr
      exact ⟨hkeeps,rfl⟩

/-- The three copies of the locks are the same. -/
structure Wired.Agree (k : Wired) : Prop where
  leds : ∀ led : Led, k.gather.modifiers led.flag = k.leds led
  panel : LedPanel.receiveAll k.sent = ⟨ledBits k.leds,false⟩

theorem Wired.Agree.lastLedByte_and_bit (hk : k.Agree) (led : Led) :
    lastLedByte k.sent &&& led.bit ≠ 0 ↔ k.leds.contains led = true := by
  rw [lastLedByte,hk.panel]
  exact ledBits_and_bit led

theorem agree_new : Wired.new.Agree := ⟨fun _ => rfl,rfl⟩

/-- A lock key toggles its own flag. -/
private theorem toggleLock_flag (k : Wired) (led led' : Led) :
    (k.toggleLock led.flag led).gather.modifiers led'.flag =
      if led' = led then !k.gather.modifiers led.flag else k.gather.modifiers led'.flag := by
  change Function.update k.gather.modifiers led.flag (!k.gather.modifiers led.flag) led'.flag = _
  by_cases hled : led' = led
  · rw [hled,if_pos rfl,Function.update_self]
  · rw [if_neg hled,Function.update_of_ne (mt (Led.flag_injective ·) hled)]

private theorem toggleLock_leds (k : Wired) (led led' : Led) :
    (k.toggleLock led.flag led).leds led' = if led' = led then !k.gather.modifiers led.flag else k.leds led' := by
  change Function.update k.leds led (Function.update k.gather.modifiers led.flag _ led.flag) led' = _
  by_cases hled : led' = led
  · rw [hled,if_pos rfl,Function.update_self,Function.update_self]
    rfl
  · rw [if_neg hled,Function.update_of_ne hled]

theorem Wired.Agree.toggleLock (hk : k.Agree) (led : Led) : (k.toggleLock led.flag led).Agree := by
  refine ⟨?_,?_⟩
  · intro led'
    rw [toggleLock_flag,toggleLock_leds,hk.leds led']
  · change (k.sent ++ [SET_LED,_]).foldl LedPanel.receive ⟨0,false⟩ = _
    have hpanel : k.sent.foldl LedPanel.receive ⟨0,false⟩ = ⟨ledBits k.leds,false⟩ := hk.panel
    rw [List.foldl_append,hpanel]
    rfl

theorem Wired.Agree.decodeByte (hk : k.Agree) (h : k.decodeByte b = some (k',flag)) : k'.Agree := by
  rcases decodeByte_cases h with ⟨led,_,rfl⟩ | ⟨_,hkeeps,hsent⟩
  · have hk0 : Wired.Agree { k with prefixByte := 0 } := ⟨hk.leds,hk.panel⟩
    exact hk0.toggleLock led
  · obtain ⟨hleds,hflags⟩ := hkeeps
    refine ⟨fun led => ?_,?_⟩
    · rw [hflags,hleds]
      exact hk.leds led
    · rw [hsent,hleds]
      exact hk.panel

/-- A byte toggles a lock exactly when it is its make code. -/
private theorem flag_decodeByte (h : k.decodeByte b = some (k',flag)) (led : Led) :
    k'.gather.modifiers led.flag = (k.gather.modifiers led.flag ^^ decide (k.Toggles b led)) := by
  rcases decodeByte_cases h with ⟨led',htoggles,rfl⟩ | ⟨hno,hkeeps,_⟩
  · rw [toggleLock_flag]
    by_cases hled : led = led'
    · subst hled
      rw [if_pos rfl,decide_eq_true htoggles,Bool.xor_true]
    · have hother : ¬ k.Toggles b led := by
        intro htoggles'
        have hcode : led.code = led'.code := htoggles'.1.symm.trans htoggles.1
        exact hled (Led.code_injective hcode)
      rw [if_neg hled,decide_eq_false hother,Bool.xor_false]
  · rw [hkeeps.2,decide_eq_false (hno led),Bool.xor_false]

end

/-! ### Whole runs of bytes -/

section
variable {k k' : Wired} {bytes : List UInt8}

private theorem decodeBytes_cons {b : UInt8} (h : k.decodeBytes (b :: bytes) = some k') :
    ∃ k₁ flag, k.decodeByte b = some (k₁,flag) ∧ k₁.decodeBytes bytes = some k' := by
  rw [Wired.decodeBytes,List.foldlM_cons,Option.bind_eq_bind,Option.bind_eq_some_iff] at h
  obtain ⟨k₁,hk₁,hrest⟩ := h
  rw [Option.map_eq_some_iff] at hk₁
  obtain ⟨⟨_,flag⟩,hbyte,rfl⟩ := hk₁
  exact ⟨_,flag,hbyte,hrest⟩

private theorem toKeyboard_of_decodeByte {b : UInt8} {flag : Bool} (h : k.decodeByte b = some (k',flag)) :
    k.toKeyboard.decodeByte b = some (k'.toKeyboard,flag) := by
  rw [← decodeByte_toKeyboard,h]
  rfl

private theorem odd_succ (n : Nat) : decide ((1 + n) % 2 = 1) = !decide (n % 2 = 1) := by
  rw [← decide_not]
  exact decide_eq_decide.mpr (by omega)

theorem Wired.Agree.decodeBytes (hk : k.Agree) (h : k.decodeBytes bytes = some k') : k'.Agree := by
  induction bytes generalizing k with
  | nil =>
    cases h
    exact hk
  | cons b bytes ih =>
    obtain ⟨k₁,flag,hbyte,hrest⟩ := decodeBytes_cons h
    exact ih (hk.decodeByte hbyte) hrest

/-- After a run of bytes a lock is toggled as often as its make code was among them. -/
theorem flag_decodeBytes (h : k.decodeBytes bytes = some k') (led : Led) :
    k'.gather.modifiers led.flag =
      (k.gather.modifiers led.flag ^^ decide (toggleCount led k.toKeyboard bytes % 2 = 1)) := by
  induction bytes generalizing k with
  | nil =>
    cases h
    simp [toggleCount]
  | cons b bytes ih =>
    obtain ⟨k₁,flag,hbyte,hrest⟩ := decodeBytes_cons h
    rw [ih hrest,flag_decodeByte hbyte,toggleCount,toKeyboard_of_decodeByte hbyte,Bool.xor_assoc]
    congr 1
    by_cases htoggles : k.Toggles b led
    · rw [if_pos htoggles,decide_eq_true htoggles,Bool.true_xor,odd_succ]
    · rw [if_neg htoggles,decide_eq_false htoggles,Bool.false_xor,Nat.zero_add]

/-- CapsLock and ScrollLock are toggled by their code, whatever the other keys are. -/
theorem toggleCount_eq_count {led : Led} (hled : led ≠ .numLock) (h : k.decodeBytes bytes = some k') :
    toggleCount led k.toKeyboard bytes = bytes.count led.code := by
  induction bytes generalizing k with
  | nil => rfl
  | cons b bytes ih =>
    obtain ⟨k₁,flag,hbyte,hrest⟩ := decodeBytes_cons h
    have htoggles : k.Toggles b led ↔ b = led.code := and_iff_left fun h => absurd h hled
    rw [toggleCount,toKeyboard_of_decodeByte hbyte,List.count_cons,Nat.add_comm]
    simp only [htoggles, beq_iff_eq, ih hrest]

end

/-- After any bytes that do not panic, the flags of the locks are the LEDs of the driver and of the last LED byte; they
are on after an odd number of make codes, NumLock's counted while the left control key is up; and no other byte changes
them. -/
theorem locks_agree {bytes : List UInt8} {k : Wired} (h : Wired.new.decodeBytes bytes = some k) :
    (∀ led : Led, k.gather.modifiers.contains led.flag = k.leds.contains led ∧
      (lastLedByte k.sent &&& led.bit ≠ 0 ↔ k.leds.contains led = true)) ∧
    (k.gather.modifiers.contains .capsLock = true ↔ bytes.count 58 % 2 = 1) ∧
    (k.gather.modifiers.contains .scrollLock = true ↔ bytes.count 70 % 2 = 1) ∧
    (k.gather.modifiers.contains .numLock = true ↔ toggleCount .numLock Keyboard.new bytes % 2 = 1) ∧
    ∀ b k' flag, k.decodeByte b = some (k',flag) →
      (∀ led : Led, ¬ k.Toggles b led → k'.gather.modifiers.contains led.flag = k.gather.modifiers.contains led.flag ∧
        k'.leds.contains led = k.leds.contains led ∧
        (lastLedByte k'.sent &&& led.bit ≠ 0 ↔ lastLedByte k.sent &&& led.bit ≠ 0)) ∧
      ((∀ led, ¬ k.Toggles b led) → k'.sent = k.sent) := by
  have hagree : k.Agree := agree_new.decodeBytes h
  have hflag (led : Led) :
      k.gather.modifiers.contains led.flag = true ↔ toggleCount led Keyboard.new bytes % 2 = 1 := by
    have hflip := flag_decodeBytes h led
    rw [show Wired.new.gather.modifiers led.flag = false from rfl,Bool.false_xor] at hflip
    rw [Flags.contains,hflip,decide_eq_true_iff]
    rfl
  have hcaps : toggleCount .capsLock Keyboard.new bytes = bytes.count 58 :=
    toggleCount_eq_count (show Led.capsLock ≠ .numLock by decide) h
  have hscroll : toggleCount .scrollLock Keyboard.new bytes = bytes.count 70 :=
    toggleCount_eq_count (show Led.scrollLock ≠ .numLock by decide) h
  refine ⟨fun led => ⟨hagree.leds led,hagree.lastLedByte_and_bit led⟩,?_,?_,hflag .numLock,?_⟩
  · rw [← hcaps]
    exact hflag .capsLock
  · rw [← hscroll]
    exact hflag .scrollLock
  · intro b k' flag hbyte
    have hagree' := hagree.decodeByte hbyte
    constructor
    · intro led hother
      have hsame : k'.gather.modifiers led.flag = k.gather.modifiers led.flag := by
        rw [flag_decodeByte hbyte,decide_eq_false hother,Bool.xor_false]
      have hleds : k'.leds led = k.leds led := by rw [← hagree'.leds,← hagree.leds,hsame]
      refine ⟨hsame,hleds,?_⟩
      rw [hagree'.lastLedByte_and_bit,hagree.lastLedByte_and_bit,Flags.contains,Flags.contains,hleds]
    · intro hother
      rcases decodeByte_cases hbyte with ⟨led,htoggles,_⟩ | ⟨_,_,hsent⟩
      · exact absurd htoggles (hother led)
      · exact hsent

/-- CapsLock is pressed and let go, then Break with the left control key, then NumLock. -/
theorem locks_agree_break : ∃ k, Wired.new.decodeBytes [0x3a,0xba,0x1d,0x45,0xc5,0x9d,0x45] = some k ∧
    k.sent = [0xed,4,0xed,6] ∧ k.gather.modifiers.contains .capsLock = true ∧
    k.gather.modifiers.contains .numLock = true := by
  have hrun : Wired.new.decodeBytes [0x3a,0xba,0x1d,0x45,0xc5,0x9d,0x45] = some _ := rfl
  obtain ⟨_,hcaps,_,hnum,_⟩ := locks_agree hrun
  exact ⟨_,hrun,rfl,hcaps.mpr (by decide),hnum.mpr (by decide)⟩

end Keyboard

end HeineOS
