import HeineOS.Device.Decoding
import HeineOS.Lib.BoundedQueue

/-! The queue of key events, the ways to wait for one, and texts that are typed and read back. -/
namespace HeineOS
open Lib

/-- What a call that waits for something has come to: a panic, an empty queue, or a result. -/
inductive Polled (Q α : Type) where
  | panic
  | waits (q : Q)
  | got (result : α) (q : Q)

namespace KeyEventQueue
variable {Q : Type} (S : BoundedQueue Q KeyEvent)

def capacity : Nat := 128

def new : Q := S.queue capacity

/-- Here and below, there is no result if the queue is closed, which panics. -/
def pushKeyEvent (q : Q) (key : KeyEvent) : Option Q := if S.isClosed q then none else some (S.tryEnqueue q key).2

def popKeyEvent (q : Q) : Option (Option KeyEvent × Q) := if S.isClosed q then none else some (S.tryDequeue q)

def pollKeyEvent (q : Q) : Polled Q KeyEvent :=
  if S.isClosed q then .panic
  else
    match S.tryDequeue q with
    | (none,q') => .waits q'
    | (some key,q') => .got key q'

/-- Here and below, `n` bounds the events that are looked at. -/
def pollKeyPress (q : Q) : Nat → Polled Q KeyEvent
  | 0 => .waits q
  | n + 1 =>
    match pollKeyEvent S q with
    | .got key q' => if key.pressed then .got key q' else pollKeyPress q' n
    | other => other

def pollChar (q : Q) : Nat → Polled Q Char
  | 0 => .waits q
  | n + 1 =>
    match pollKeyPress S q (n + 1) with
    | .panic => .panic
    | .waits q' => .waits q'
    | .got key q' =>
      match key.ascii with
      | some c => .got c q'
      | none => pollChar q' n

/-- The results of `k` calls of `poll_char`, if none of them goes on waiting. -/
def pollChars (n : Nat) : Nat → Q → Option (List Char × Q)
  | 0,q => some ([],q)
  | k + 1,q =>
    match pollChar S q n with
    | .got c q' => (pollChars n k q').map fun (cs,q'') => (c :: cs,q'')
    | _ => none

/-- The characters of the presses among some events. -/
def chars (events : List KeyEvent) : List Char := (events.filter KeyEvent.pressed).filterMap KeyEvent.ascii

theorem chars_append (events events' : List KeyEvent) : chars (events ++ events') = chars events ++ chars events' := by
  rw [chars,List.filter_append,List.filterMap_append]
  rfl

section
variable {S : BoundedQueue Q KeyEvent} {Holds : Q → List KeyEvent → Prop} {q : Q} {events : List KeyEvent} {n : Nat}

/-- A full queue discards the event. -/
theorem pushKeyEvent_eq (hS : S.Fifo capacity Holds) (h : Holds q events) (key : KeyEvent) :
    pushKeyEvent S q key = some (S.tryEnqueue q key).2 ∧
      Holds (S.tryEnqueue q key).2 (if events.length < capacity then events ++ [key] else events) := by
  refine ⟨if_neg (by rw [hS.isOpen h]; exact Bool.false_ne_true),?_⟩
  by_cases hroom : events.length < capacity
  · rw [if_pos hroom]
    exact (hS.enqueue key h hroom).2
  · rw [if_neg hroom]
    exact (hS.full key h (Nat.le_of_not_lt hroom)).2

theorem popKeyEvent_empty (hS : S.Fifo capacity Holds) (h : Holds q []) :
    ∃ q', popKeyEvent S q = some (none,q') ∧ Holds q' [] := by
  obtain ⟨hnone,hq⟩ := hS.empty h
  refine ⟨_,?_,hq⟩
  rw [popKeyEvent,if_neg (by rw [hS.isOpen h]; exact Bool.false_ne_true),← hnone]

theorem popKeyEvent_cons (hS : S.Fifo capacity Holds) {key : KeyEvent} (h : Holds q (key :: events)) :
    ∃ q', popKeyEvent S q = some (some key,q') ∧ Holds q' events := by
  obtain ⟨hsome,hq⟩ := hS.dequeue h
  refine ⟨_,?_,hq⟩
  rw [popKeyEvent,if_neg (by rw [hS.isOpen h]; exact Bool.false_ne_true),← hsome]

private theorem pollKeyEvent_empty (hS : S.Fifo capacity Holds) (h : Holds q []) :
    ∃ q', pollKeyEvent S q = .waits q' ∧ Holds q' [] := by
  obtain ⟨q',hpop,hq⟩ := popKeyEvent_empty hS h
  rw [popKeyEvent,if_neg (by rw [hS.isOpen h]; exact Bool.false_ne_true)] at hpop
  refine ⟨q',?_,hq⟩
  rw [pollKeyEvent,if_neg (by rw [hS.isOpen h]; exact Bool.false_ne_true),Option.some.inj hpop]

private theorem pollKeyEvent_cons (hS : S.Fifo capacity Holds) {key : KeyEvent} (h : Holds q (key :: events)) :
    ∃ q', pollKeyEvent S q = .got key q' ∧ Holds q' events := by
  obtain ⟨q',hpop,hq⟩ := popKeyEvent_cons hS h
  rw [popKeyEvent,if_neg (by rw [hS.isOpen h]; exact Bool.false_ne_true)] at hpop
  refine ⟨q',?_,hq⟩
  rw [pollKeyEvent,if_neg (by rw [hS.isOpen h]; exact Bool.false_ne_true),Option.some.inj hpop]

/-- Which press is found first; if there is none, all events are gone. -/
theorem pollKeyPress_cases (hS : S.Fifo capacity Holds) (h : Holds q events) (hn : events.length < n) :
    (∃ key q' rest, pollKeyPress S q n = .got key q' ∧ Holds q' rest ∧
      events.filter KeyEvent.pressed = key :: rest.filter KeyEvent.pressed ∧ rest.length < events.length) ∨
    ∃ q', pollKeyPress S q n = .waits q' ∧ Holds q' [] ∧ events.filter KeyEvent.pressed = [] := by
  induction n generalizing q events with
  | zero => exact absurd hn (Nat.not_lt_zero _)
  | succ n ih =>
    rw [pollKeyPress]
    cases events with
    | nil =>
      obtain ⟨q',hpoll,hq⟩ := pollKeyEvent_empty hS h
      rw [hpoll]
      exact .inr ⟨q',rfl,hq,rfl⟩
    | cons key events =>
      obtain ⟨q',hpoll,hq⟩ := pollKeyEvent_cons hS h
      rw [hpoll]
      dsimp only
      by_cases hpressed : key.pressed = true
      · rw [if_pos hpressed]
        exact .inl ⟨key,q',events,rfl,hq,List.filter_cons_of_pos hpressed,Nat.lt_succ_self _⟩
      · rw [if_neg hpressed,List.filter_cons_of_neg hpressed]
        rcases ih hq (Nat.lt_of_succ_lt_succ hn) with ⟨key',q'',rest,heq,hq'',hfilter,hlt⟩ | hnone
        · exact .inl ⟨key',q'',rest,heq,hq'',hfilter,Nat.lt_succ_of_lt hlt⟩
        · exact .inr hnone

theorem pollChar_cases (hS : S.Fifo capacity Holds) (h : Holds q events) (hn : events.length < n) :
    (∃ c q' rest, pollChar S q n = .got c q' ∧ Holds q' rest ∧ chars events = c :: chars rest ∧
      rest.length < events.length) ∨
    ∃ q', pollChar S q n = .waits q' ∧ Holds q' [] ∧ chars events = [] := by
  induction n generalizing q events with
  | zero => exact absurd hn (Nat.not_lt_zero _)
  | succ n ih =>
    rw [pollChar]
    rcases pollKeyPress_cases hS h hn with ⟨key,q',rest,hpoll,hq,hfilter,hlt⟩ | ⟨q',hpoll,hq,hfilter⟩
    · rw [hpoll]
      dsimp only
      cases hascii : key.ascii with
      | some c =>
        refine .inl ⟨c,q',rest,rfl,hq,?_,hlt⟩
        rw [chars,hfilter,List.filterMap_cons_some hascii]
        rfl
      | none =>
        have hskip : chars events = chars rest := by
          rw [chars,hfilter,List.filterMap_cons_none hascii]
          rfl
        rw [hskip]
        rcases ih hq (by omega) with ⟨c,q'',rest',heq,hq'',hchars,hlt'⟩ | hnone
        · exact .inl ⟨c,q'',rest',heq,hq'',hchars,Nat.lt_trans hlt' hlt⟩
        · exact .inr hnone
    · rw [hpoll]
      exact .inr ⟨q',rfl,hq,by rw [chars,hfilter]; rfl⟩

/-- `poll_char` reads the characters of the presses in turn, and then waits. -/
theorem pollChars_eq (hS : S.Fifo capacity Holds) (h : Holds q events) (hn : events.length < n) {text : List Char}
    (htext : chars events = text) : ∃ q', pollChars S n text.length q = some (text,q') ∧
      ∃ q'', pollChar S q' n = .waits q'' := by
  induction text generalizing q events with
  | nil =>
    rcases pollChar_cases hS h hn with ⟨c,q',rest,-,-,hchars,-⟩ | ⟨q',heq,-⟩
    · rw [htext] at hchars
      cases hchars
    · exact ⟨q,rfl,q',heq⟩
  | cons c text ih =>
    rcases pollChar_cases hS h hn with ⟨c',q',rest,heq,hq,hchars,hlt⟩ | ⟨q',-,-,hnone⟩
    · rw [htext] at hchars
      obtain ⟨rfl,hrest⟩ := List.cons.inj hchars
      obtain ⟨q'',hread,hwaits⟩ := ih hq (Nat.lt_trans hlt hn) hrest.symm
      refine ⟨q'',?_,hwaits⟩
      simp only [List.length_cons, pollChars, heq, hread, Option.map_some]
    · rw [hnone] at htext
      cases htext

end

end KeyEventQueue

namespace Flags
variable {F : Type} [DecidableEq F]

theorem contains_set_self (flags : Flags F) (flag : F) (on : Bool) : (flags.set flag on).contains flag = on := by
  rw [contains,set,Function.update_self]

theorem contains_set_ne (flags : Flags F) {flag flag' : F} (h : flag' ≠ flag) (on : Bool) :
    (flags.set flag on).contains flag' = flags.contains flag' := by
  rw [contains,set,Function.update_of_ne h]
  rfl

end Flags

namespace Keyboard
open KeyEventQueue

/-- The events that a run of bytes completes, up to a byte that panics. -/
def eventsOf (k : Keyboard) : List UInt8 → List KeyEvent
  | [] => []
  | b :: bytes =>
    match k.decodeByte b with
    | none => []
    | some (k',flag) => (if flag then [k'.gather] else []) ++ eventsOf k' bytes

theorem decodeBytes_step {k k' : Keyboard} {b : UInt8} {flag : Bool} (h : k.decodeByte b = some (k',flag))
    (bytes : List UInt8) : k.decodeBytes (b :: bytes) = k'.decodeBytes bytes := by
  rw [decodeBytes,List.foldlM_cons,h]
  rfl

theorem eventsOf_step {k k' : Keyboard} {b : UInt8} {flag : Bool} (h : k.decodeByte b = some (k',flag))
    (bytes : List UInt8) : k.eventsOf (b :: bytes) = (if flag then [k'.gather] else []) ++ k'.eventsOf bytes := by
  rw [eventsOf,h]

theorem eventsOf_append {k k' : Keyboard} {bytes : List UInt8} (h : k.decodeBytes bytes = some k')
    (bytes' : List UInt8) : k.eventsOf (bytes ++ bytes') = k.eventsOf bytes ++ k'.eventsOf bytes' := by
  induction bytes generalizing k with
  | nil =>
    obtain rfl := Option.some.inj h
    rfl
  | cons b bytes ih =>
    rw [decodeBytes,List.foldlM_cons] at h
    obtain ⟨k₁,hb,hrest⟩ := Option.bind_eq_some_iff.mp h
    obtain ⟨⟨k₂,flag⟩,hstep,rfl⟩ := Option.map_eq_some_iff.mp hb
    rw [List.cons_append,eventsOf,eventsOf,hstep]
    dsimp only
    rw [ih hrest,List.append_assoc]

/-- The keys outside of the keypad, whose codes do not depend on NumLock. -/
def mainKeys : List UInt8 := ((List.range 92).map UInt8.ofNat).filter fun code => code < 71 ∨ 83 < code

/-- The modifier that is held with a key, which selects the table. -/
inductive Level where
  | normal
  | shift
  | altGr

namespace Level

def tab : Level → List UInt8
  | normal => NORMAL_TAB
  | shift => SHIFT_TAB
  | altGr => ALT_TAB

def press : Level → List UInt8
  | normal => []
  | shift => [42]
  | altGr => [PREFIX1,56]

def release : Level → List UInt8
  | normal => []
  | shift => [42 ||| BREAK_BIT]
  | altGr => [PREFIX1,56 ||| BREAK_BIT]

def hold : Level → KeyModifiers → KeyModifiers
  | normal,modifiers => modifiers
  | shift,modifiers => modifiers.insert .shift
  | altGr,modifiers => modifiers.insert .altRight

end Level

structure Stroke where
  code : UInt8
  level : Level

/-- The key for a byte of a table. -/
def Level.find (level : Level) (ascii : UInt8) : Option Stroke :=
  (mainKeys.find? fun code => level.tab[code.toNat]? = some ascii).map fun code => ⟨code,level⟩

/-- A key for a character, and what is held with it. -/
def strokeFor (c : Char) : Option Stroke :=
  if c.toNat = 0 ∨ 255 < c.toNat then none
  else
    ((Level.normal.find (UInt8.ofNat c.toNat)).or (Level.shift.find (UInt8.ofNat c.toNat))).or
      (Level.altGr.find (UInt8.ofNat c.toNat))

/-- The key is pressed and let go, with the modifier held if need be. -/
def Stroke.bytes (s : Stroke) : List UInt8 := s.level.press ++ [s.code,s.code ||| BREAK_BIT] ++ s.level.release

/-- The bytes of a text that is typed key by key. -/
def typed (text : List Char) : List UInt8 := text.flatMap fun c => ((strokeFor c).map Stroke.bytes).getD []

/-- Some table has the character, the one of the keypad included. -/
def Typeable (c : Char) : Prop :=
  ∃ b ∈ NORMAL_TAB ++ SHIFT_TAB ++ ALT_TAB ++ ASC_NUM_TAB, b ≠ 0 ∧ KeyEvent.charFromU32 b.toUInt32 = some c

/-- Every such character has a key outside of the keypad. -/
theorem isSome_strokeFor {c : Char} (h : Typeable c) : (strokeFor c).isSome := by
  have hall : ∀ b ∈ NORMAL_TAB ++ SHIFT_TAB ++ ALT_TAB ++ ASC_NUM_TAB, b ≠ 0 →
      (KeyEvent.charFromU32 b.toUInt32).all (fun c => (strokeFor c).isSome) = true := by decide +kernel
  obtain ⟨b,hb,hzero,hc⟩ := h
  have hsome := hall b hb hzero
  rw [hc] at hsome
  exact hsome

/-- No key is held and no lock is on but NumLock. -/
structure Plain (k : Keyboard) : Prop where
  prefixByte : k.prefixByte = 0
  shift : k.gather.modifiers.contains .shift = false
  altRight : k.gather.modifiers.contains .altRight = false
  capsLock : k.gather.modifiers.contains .capsLock = false

theorem plain_new : Plain new := ⟨rfl,rfl,rfl,rfl⟩

private theorem main_keys : ∀ code ∈ mainKeys, code.toNat < 92 ∧ code &&& BREAK_BIT = 0 ∧ keyCode code = code ∧
    keyCode (code ||| BREAK_BIT) = code ∧ (code ||| BREAK_BIT) &&& BREAK_BIT ≠ 0 ∧ code ≠ PREFIX1 ∧ code ≠ PREFIX2 ∧
    code ||| BREAK_BIT ≠ PREFIX1 ∧ code ||| BREAK_BIT ≠ PREFIX2 ∧ ¬ (code ≥ 71 ∧ code ≤ 83) := by
  have hall : (mainKeys.all fun code => decide (code.toNat < 92 ∧ code &&& BREAK_BIT = 0 ∧ keyCode code = code ∧
      keyCode (code ||| BREAK_BIT) = code ∧ (code ||| BREAK_BIT) &&& BREAK_BIT ≠ 0 ∧ code ≠ PREFIX1 ∧
      code ≠ PREFIX2 ∧ code ||| BREAK_BIT ≠ PREFIX1 ∧ code ||| BREAK_BIT ≠ PREFIX2 ∧
      ¬ (code ≥ 71 ∧ code ≤ 83))) = true := by decide
  intro code hcode
  exact of_decide_eq_true (List.all_eq_true.mp hall code hcode)

/-- The modifiers and the locks have no characters in the tables. -/
private theorem completes_of_ascii (level : Level) : ∀ code ∈ mainKeys,
    level.tab[code.toNat]? ≠ some 0 → code ∉ [42,54,56,29,58,70,69] := by
  have hall : (mainKeys.all fun code => decide (level.tab[code.toNat]? ≠ some 0 →
      code ∉ [42,54,56,29,58,70,69])) = true := by cases level <;> decide
  intro code hcode
  exact of_decide_eq_true (List.all_eq_true.mp hall code hcode)

private theorem find_cases {level : Level} {ascii : UInt8} {s : Stroke} (h : level.find ascii = some s) :
    s.code ∈ mainKeys ∧ s.level.tab[s.code.toNat]? = some ascii := by
  obtain ⟨code,hfind,rfl⟩ := Option.map_eq_some_iff.mp h
  have htab := List.find?_some hfind
  exact ⟨List.mem_of_find?_eq_some hfind,of_decide_eq_true htab⟩

private theorem stroke_cases {c : Char} {s : Stroke} (h : strokeFor c = some s) :
    s.code ∈ mainKeys ∧ UInt8.ofNat c.toNat ≠ 0 ∧ KeyEvent.charFromU32 (UInt8.ofNat c.toNat).toUInt32 = some c ∧
      s.level.tab[s.code.toNat]? = some (UInt8.ofNat c.toNat) := by
  rw [strokeFor] at h
  split at h
  · cases h
  rename_i hrange
  rw [not_or,Nat.not_lt] at hrange
  have hbyte : (UInt8.ofNat c.toNat).toNat = c.toNat := UInt8.toNat_ofNat_of_lt' (Nat.lt_succ_of_le hrange.2)
  have hzero : UInt8.ofNat c.toNat ≠ 0 := by
    intro h0
    rw [h0] at hbyte
    exact hrange.1 hbyte.symm
  have hchar : KeyEvent.charFromU32 (UInt8.ofNat c.toNat).toUInt32 = some c := by
    have hval : (UInt8.ofNat c.toNat).toUInt32 = c.val := by
      apply UInt32.toNat_inj.mp
      rw [UInt8.toNat_toUInt32,hbyte]
      rfl
    rw [KeyEvent.charFromU32,hval,dif_pos c.valid]
  have hfind : s.code ∈ mainKeys ∧ s.level.tab[s.code.toNat]? = some (UInt8.ofNat c.toNat) := by
    rcases Option.or_eq_some_iff.mp h with h | ⟨-,h⟩
    · rcases Option.or_eq_some_iff.mp h with h | ⟨-,h⟩
      · exact find_cases h
      · exact find_cases h
    · exact find_cases h
  exact ⟨hfind.1,hzero,hchar,hfind.2⟩

section
variable {k : Keyboard} {c : Char} {s : Stroke}

private theorem translation_stroke (hk : Plain k) (h : strokeFor c = some s) :
    translation s.code 0 (s.level.hold k.gather.modifiers) = some (UInt8.ofNat c.toNat,s.code) := by
  obtain ⟨hmem,-,-,htab⟩ := stroke_cases h
  have hkeypad := (main_keys s.code hmem).2.2.2.2.2.2.2.2.2
  rw [translation,if_neg fun h => hkeypad h.2.2]
  cases hs : s.level with
  | normal =>
    rw [hs] at htab
    have htab : NORMAL_TAB[s.code.toNat]? = some (UInt8.ofNat c.toNat) := htab
    rw [Level.hold,hk.altRight,hk.shift,hk.capsLock,if_neg Bool.false_ne_true,if_neg Bool.false_ne_true,
      if_neg Bool.false_ne_true,htab]
    rfl
  | shift =>
    rw [hs] at htab
    have htab : SHIFT_TAB[s.code.toNat]? = some (UInt8.ofNat c.toNat) := htab
    have halt := (Flags.contains_set_ne k.gather.modifiers (show .altRight ≠ KeyModifier.shift by decide)
      true).trans hk.altRight
    rw [Level.hold,Flags.insert,halt,Flags.contains_set_self,if_neg Bool.false_ne_true,if_pos rfl,htab]
    rfl
  | altGr =>
    rw [hs] at htab
    have htab : ALT_TAB[s.code.toNat]? = some (UInt8.ofNat c.toNat) := htab
    rw [Level.hold,Flags.insert,Flags.contains_set_self,if_pos rfl,htab]
    rfl

/-- The press and the release of the key of a stroke, with its modifier held. -/
private theorem decodeByte_stroke {gather : KeyEvent} {leds : Flags Led} (hk : Plain k) (h : strokeFor c = some s)
    (hmod : gather.modifiers = s.level.hold k.gather.modifiers) (pressed : Bool) :
    decodeByte ⟨0,gather,leds⟩ (if pressed then s.code else s.code ||| BREAK_BIT) =
      some (⟨0,⟨some c,Scancode.tryFrom s.code,gather.modifiers,pressed⟩,leds⟩,true) := by
  obtain ⟨hmem,hzero,hchar,htab⟩ := stroke_cases h
  obtain ⟨-,hmake,hcode,hcode',hbreak,hp1,hp2,hp3,hp4,-⟩ := main_keys s.code hmem
  have hascii : s.level.tab[s.code.toNat]? ≠ some 0 := by
    rw [htab]
    exact fun h0 => hzero (Option.some.inj h0)
  have hnot := completes_of_ascii s.level s.code hmem hascii
  have hcompletes : CompletesKey s.code gather.modifiers := by
    refine ⟨fun hm => hnot ?_,fun h69 => absurd ?_ hnot⟩
    · exact List.mem_append_left [69] hm
    · rw [h69]
      decide
  have htranslation := translation_stroke hk h
  rw [← hmod] at htranslation
  have hcomplete : ∀ b, keyCode b = s.code → ¬ (b = PREFIX1 ∨ b = PREFIX2) →
      decodeByte ⟨0,gather,leds⟩ b =
        some (⟨0,⟨some c,Scancode.tryFrom s.code,gather.modifiers,b &&& BREAK_BIT = 0⟩,leds⟩,true) := by
    intro b hb hpre
    rw [decodeByte_of_completes hpre (by rw [hb]; exact hcompletes),hb,completeKey,parseAsciiCode,htranslation]
    simp only [Option.map_some, KeyEvent.setAscii, if_pos hzero, KeyEvent.setScancode, KeyEvent.setPressed, hchar]
  cases pressed with
  | false =>
    rw [if_neg Bool.false_ne_true,hcomplete _ hcode' (not_or.mpr ⟨hp3,hp4⟩),decide_eq_false hbreak]
  | true => rw [if_pos rfl,hcomplete _ hcode (not_or.mpr ⟨hp1,hp2⟩),decide_eq_true hmake]

private theorem decodeByte_shift (k : Keyboard) :
    k.decodeByte 42 = some ({ k with prefixByte := 0, gather := k.gather.insertModifiers .shift },false) := rfl

private theorem decodeByte_unshift (k : Keyboard) :
    k.decodeByte (42 ||| BREAK_BIT) =
      some ({ k with prefixByte := 0, gather := k.gather.removeModifiers .shift },false) := rfl

private theorem decodeByte_prefixed (k : Keyboard) :
    k.decodeByte PREFIX1 = some ({ k with prefixByte := PREFIX1 },false) := rfl

private theorem decodeByte_altGr (gather : KeyEvent) (leds : Flags Led) :
    decodeByte ⟨PREFIX1,gather,leds⟩ 56 = some (⟨0,gather.insertModifiers .altRight,leds⟩,false) := rfl

private theorem decodeByte_unAltGr (gather : KeyEvent) (leds : Flags Led) :
    decodeByte ⟨PREFIX1,gather,leds⟩ (56 ||| BREAK_BIT) = some (⟨0,gather.removeModifiers .altRight,leds⟩,false) := rfl

/-- A modifier that was not held is gone when it is let go. -/
private theorem remove_insert {modifiers : KeyModifiers} {flag : KeyModifier} (h : modifiers.contains flag = false) :
    (modifiers.insert flag).remove flag = modifiers := by
  rw [Flags.remove,Flags.insert,Flags.set,Flags.set,Function.update_idem]
  exact (congrArg (modifiers.set flag) h).symm.trans (Function.update_eq_self _ _)

/-- One character is typed. -/
private theorem stroke_spec (hk : Plain k) (h : strokeFor c = some s) :
    ∃ k', k.decodeBytes s.bytes = some k' ∧ Plain k' ∧ chars (k.eventsOf s.bytes) = [c] := by
  obtain ⟨p,gather,leds⟩ := k
  obtain rfl : p = 0 := hk.prefixByte
  have hplain : ∀ {modifiers : KeyModifiers}, modifiers = gather.modifiers →
      ∀ ascii scancode, Plain ⟨0,⟨ascii,scancode,modifiers,false⟩,leds⟩ := by
    rintro _ rfl ascii scancode
    exact ⟨rfl,hk.shift,hk.altRight,hk.capsLock⟩
  rw [Stroke.bytes]
  cases hs : s.level with
  | normal =>
    have hmake := @decodeByte_stroke _ c s gather leds hk h (by rw [hs]; rfl) true
    have hbreak := @decodeByte_stroke _ c s ⟨some c,Scancode.tryFrom s.code,gather.modifiers,true⟩ leds hk h
      (by rw [hs]; rfl) false
    rw [if_pos rfl] at hmake
    rw [if_neg Bool.false_ne_true] at hbreak
    refine ⟨_,?_,hplain rfl (some c) (Scancode.tryFrom s.code),?_⟩
    · change decodeBytes _ [s.code,s.code ||| BREAK_BIT] = _
      rw [decodeBytes_step hmake,decodeBytes_step hbreak]
      rfl
    · change chars (eventsOf _ [s.code,s.code ||| BREAK_BIT]) = _
      rw [eventsOf_step hmake,eventsOf_step hbreak]
      rfl
  | shift =>
    have hmake := @decodeByte_stroke _ c s (gather.insertModifiers .shift) leds hk h (by rw [hs]; rfl) true
    have hbreak := @decodeByte_stroke _ c s
      ⟨some c,Scancode.tryFrom s.code,(gather.insertModifiers .shift).modifiers,true⟩ leds hk h (by rw [hs]; rfl) false
    rw [if_pos rfl] at hmake
    rw [if_neg Bool.false_ne_true] at hbreak
    refine ⟨_,?_,hplain (remove_insert hk.shift) (some c) (Scancode.tryFrom s.code),?_⟩
    · change decodeBytes _ [42,s.code,s.code ||| BREAK_BIT,42 ||| BREAK_BIT] = _
      rw [decodeBytes_step (decodeByte_shift _),decodeBytes_step hmake,decodeBytes_step hbreak,
        decodeBytes_step (decodeByte_unshift _)]
      rfl
    · change chars (eventsOf _ [42,s.code,s.code ||| BREAK_BIT,42 ||| BREAK_BIT]) = _
      rw [eventsOf_step (decodeByte_shift _),eventsOf_step hmake,eventsOf_step hbreak,
        eventsOf_step (decodeByte_unshift _)]
      rfl
  | altGr =>
    have hmake := @decodeByte_stroke _ c s (gather.insertModifiers .altRight) leds hk h (by rw [hs]; rfl) true
    have hbreak := @decodeByte_stroke _ c s
      ⟨some c,Scancode.tryFrom s.code,(gather.insertModifiers .altRight).modifiers,true⟩ leds hk h (by rw [hs]; rfl) false
    rw [if_pos rfl] at hmake
    rw [if_neg Bool.false_ne_true] at hbreak
    refine ⟨_,?_,hplain (remove_insert hk.altRight) (some c) (Scancode.tryFrom s.code),?_⟩
    · change decodeBytes _ [PREFIX1,56,s.code,s.code ||| BREAK_BIT,PREFIX1,56 ||| BREAK_BIT] = _
      rw [decodeBytes_step (decodeByte_prefixed _),decodeBytes_step (decodeByte_altGr _ _),decodeBytes_step hmake,
        decodeBytes_step hbreak,decodeBytes_step (decodeByte_prefixed _),decodeBytes_step (decodeByte_unAltGr _ _)]
      rfl
    · change chars (eventsOf _ [PREFIX1,56,s.code,s.code ||| BREAK_BIT,PREFIX1,56 ||| BREAK_BIT]) = _
      rw [eventsOf_step (decodeByte_prefixed _),eventsOf_step (decodeByte_altGr _ _),eventsOf_step hmake,
        eventsOf_step hbreak,eventsOf_step (decodeByte_prefixed _),eventsOf_step (decodeByte_unAltGr _ _)]
      rfl

/-- A text that is typed is read back by `poll_char`. -/
theorem typed_spec (hk : Plain k) {text : List Char} (h : ∀ c ∈ text, Typeable c) :
    ∃ k', k.decodeBytes (typed text) = some k' ∧ Plain k' ∧ chars (k.eventsOf (typed text)) = text := by
  induction text generalizing k with
  | nil => exact ⟨k,rfl,hk,rfl⟩
  | cons c text ih =>
    obtain ⟨s,hs⟩ := Option.isSome_iff_exists.mp (isSome_strokeFor (h c List.mem_cons_self))
    obtain ⟨k₁,hbytes,hk₁,hchars⟩ := stroke_spec hk hs
    obtain ⟨k₂,hrest,hk₂,hrestChars⟩ := ih hk₁ fun c' hc' => h c' (List.mem_cons_of_mem _ hc')
    have htyped : typed (c :: text) = s.bytes ++ typed text := by
      rw [typed,List.flatMap_cons,hs]
      rfl
    refine ⟨k₂,?_,hk₂,?_⟩
    · rw [decodeBytes] at hbytes hrest
      rw [htyped,decodeBytes,List.foldlM_append,hbytes]
      exact hrest
    · rw [htyped,eventsOf_append hbytes,chars_append,hchars,hrestChars]
      rfl

end

end Keyboard

end HeineOS
