import HeineOS.Device.Decoding
import Mathlib.Data.List.Induction

/-! The modifier flags against the keys that are held down, over any sequence of makes and breaks. -/
namespace HeineOS.Keyboard

/-- The codes with table entries that belong to none of the modifier keys. -/
def OrdinaryCode := {code : UInt8 // code < 92 ∧ code ∉ [42,54,56,29]}
  deriving DecidableEq

/-- A key of the keyboard. An extended key sends the first prefix byte before its code. -/
inductive PhysicalKey where
  | shiftLeft | shiftRight | altLeft | altRight | ctrlLeft | ctrlRight
  | ordinary (extended : Bool) (code : OrdinaryCode)
  deriving DecidableEq

namespace PhysicalKey

def extended : PhysicalKey → Bool
  | altRight | ctrlRight => true
  | ordinary extended _ => extended
  | _ => false

def code : PhysicalKey → UInt8
  | shiftLeft => 0x2a
  | shiftRight => 0x36
  | altLeft | altRight => 0x38
  | ctrlLeft | ctrlRight => 0x1d
  | ordinary _ code => code.val

def otherShift : PhysicalKey → Option PhysicalKey
  | shiftLeft => some shiftRight
  | shiftRight => some shiftLeft
  | _ => none

end PhysicalKey

/-- A key goes down, perhaps once more while it is held, or up. -/
structure KeyAction where
  key : PhysicalKey
  pressed : Bool

def KeyAction.bytes (a : KeyAction) : List UInt8 :=
  (if a.key.extended then [PREFIX1] else []) ++ [if a.pressed then a.key.code else a.key.code ||| BREAK_BIT]

/-- The keys that are down after some actions, starting from none. -/
def held (actions : List KeyAction) : PhysicalKey → Bool :=
  actions.foldl (fun h a => Function.update h a.key a.pressed) fun _ => false

/-- Only keys that are down go up. -/
def Alternates (actions : List KeyAction) : Prop :=
  ∀ before a after, actions = before ++ a :: after → a.pressed = false → held before a.key = true

/-- The modifiers say which keys are down. -/
def FollowKeys (modifiers : KeyModifiers) (down : PhysicalKey → Bool) : Prop :=
  modifiers.contains .altLeft = down .altLeft ∧ modifiers.contains .altRight = down .altRight ∧
  modifiers.contains .ctrlLeft = down .ctrlLeft ∧ modifiers.contains .ctrlRight = down .ctrlRight ∧
  modifiers.contains .shift = (down .shiftLeft || down .shiftRight)

/-- The last action of a Shift key is its release, while the other one stays down. -/
def ShiftLetGo (actions : List KeyAction) : Prop :=
  ∃ before key other after, actions = before ++ ⟨key,false⟩ :: after ∧ key.otherShift = some other ∧
    held before other = true ∧ ∀ a ∈ after, a.key.otherShift = none

/-! ### One action -/

/-- What the driver knows: no prefix is pending, four flags are keys, and the flag of the Shift keys is the last of
their actions. -/
def Tracks (k : Keyboard) (down : PhysicalKey → Bool) (shift : Bool) : Prop :=
  k.prefixByte = 0 ∧ k.gather.modifiers .altLeft = down .altLeft ∧ k.gather.modifiers .altRight = down .altRight ∧
  k.gather.modifiers .ctrlLeft = down .ctrlLeft ∧ k.gather.modifiers .ctrlRight = down .ctrlRight ∧
  k.gather.modifiers .shift = shift

private theorem ordinary_bytes {code : UInt8} (h : code < 92) :
    ¬ (code = PREFIX1 ∨ code = PREFIX2) ∧ code &&& BREAK_BIT = 0 ∧
    ¬ (code ||| BREAK_BIT = PREFIX1 ∨ code ||| BREAK_BIT = PREFIX2) ∧ (code ||| BREAK_BIT) &&& BREAK_BIT ≠ 0 ∧
    (code ||| BREAK_BIT) &&& ~~~ BREAK_BIT = code := by
  have hall : ∀ n < 92, ¬ (UInt8.ofNat n = PREFIX1 ∨ UInt8.ofNat n = PREFIX2) ∧ UInt8.ofNat n &&& BREAK_BIT = 0 ∧
      ¬ (UInt8.ofNat n ||| BREAK_BIT = PREFIX1 ∨ UInt8.ofNat n ||| BREAK_BIT = PREFIX2) ∧
      (UInt8.ofNat n ||| BREAK_BIT) &&& BREAK_BIT ≠ 0 ∧
      (UInt8.ofNat n ||| BREAK_BIT) &&& ~~~ BREAK_BIT = UInt8.ofNat n := by decide
  have hcode := hall code.toNat (UInt8.lt_iff_toNat_lt.mp h)
  rw [UInt8.ofNat_toNat] at hcode
  exact hcode

/-- The change of an ordinary key: the locks perhaps, but none of the flags that are keys. -/
private def KeepsKeys (k k' : Keyboard) : Prop :=
  k'.prefixByte = k.prefixByte ∧
    ∀ f, f ∉ [KeyModifier.capsLock,.numLock,.scrollLock] → k'.gather.modifiers f = k.gather.modifiers f

section
variable {k : Keyboard} {code p : UInt8}

private theorem completeKey_keeps (hcode : code < 92) (pressed : Bool) :
    ∃ k', k.completeKey code p pressed = some (k',true) ∧ KeepsKeys k k' := by
  have hsome : (translation code p k.gather.modifiers).isSome := isSome_translation.mpr hcode
  obtain ⟨r,hr⟩ := Option.isSome_iff_exists.mp hsome
  have hparsed : ∃ key, parseAsciiCode code p k.gather = some key := by
    rw [parseAsciiCode,hr]
    exact ⟨_,rfl⟩
  obtain ⟨key,hkey⟩ := hparsed
  have hcomplete : k.completeKey code p pressed = some ({ k with gather := key.setPressed pressed },true) := by
    rw [completeKey,hkey,Option.map_some]
  obtain ⟨hpending,_,hmodifiers⟩ := completeKey_frame hcomplete
  exact ⟨_,hcomplete,hpending,fun f _ => congrFun hmodifiers f⟩

private theorem toggleLock_keeps {flag : KeyModifier} (led : Led)
    (hflag : flag ∈ [KeyModifier.capsLock,.numLock,.scrollLock]) : KeepsKeys k (k.toggleLock flag led) := by
  refine ⟨rfl,fun f hf => ?_⟩
  have hne : f ≠ flag := fun h => hf (h ▸ hflag)
  exact Function.update_of_ne hne _ _

private theorem decodeMake_ordinary (hcode : code < 92) (hother : code ∉ [42,54,56,29]) :
    ∃ k' flag, k.decodeMake code p = some (k',flag) ∧ KeepsKeys k k' := by
  simp only [List.mem_cons, List.not_mem_nil, or_false, not_or] at hother
  obtain ⟨h42,h54,h56,h29⟩ := hother
  obtain ⟨k',hk',hkeeps⟩ := completeKey_keeps (k := k) (p := p) hcode true
  rw [decodeMake,if_neg (by simp [h42, h54]),if_neg h56,if_neg h29]
  by_cases h58 : code = 58
  · exact ⟨_,_,if_pos h58,toggleLock_keeps _ (by decide)⟩
  by_cases h70 : code = 70
  · rw [if_neg h58,if_pos h70]
    exact ⟨_,_,rfl,toggleLock_keeps _ (by decide)⟩
  rw [if_neg h58,if_neg h70]
  split
  · split
    · exact ⟨_,_,hk',hkeeps⟩
    · exact ⟨_,_,rfl,toggleLock_keeps _ (by decide)⟩
  · exact ⟨_,_,hk',hkeeps⟩

private theorem decodeBreak_ordinary (hcode : code < 92) (hother : code ∉ [42,54,56,29]) :
    ∃ k' flag, k.decodeBreak code p = some (k',flag) ∧ KeepsKeys k k' := by
  simp only [List.mem_cons, List.not_mem_nil, or_false, not_or] at hother
  obtain ⟨h42,h54,h56,h29⟩ := hother
  obtain ⟨k',hk',hkeeps⟩ := completeKey_keeps (k := k) (p := p) hcode false
  rw [decodeBreak,if_neg (by simp [h42, h54]),if_neg h56,if_neg h29]
  split
  · exact ⟨_,_,rfl,rfl,fun _ _ => rfl⟩
  split
  · split
    · exact ⟨_,_,hk',hkeeps⟩
    · exact ⟨_,_,rfl,rfl,fun _ _ => rfl⟩
  · exact ⟨_,_,hk',hkeeps⟩

private theorem decodeByte_ordinary (k : Keyboard) (hcode : code < 92) (hother : code ∉ [42,54,56,29])
    (pressed : Bool) : ∃ k' flag, k.decodeByte (if pressed then code else code ||| BREAK_BIT) = some (k',flag) ∧
      KeepsKeys { k with prefixByte := 0 } k' := by
  obtain ⟨hmake,hmakeBit,hbreak,hbreakBit,hbreakCode⟩ := ordinary_bytes hcode
  cases pressed with
  | true =>
    simp only [if_true, decodeByte, if_neg hmake, hmakeBit, ne_eq, not_true_eq_false, if_false]
    exact decodeMake_ordinary hcode hother
  | false =>
    simp only [Bool.false_eq_true, if_false, decodeByte, if_neg hbreak, if_pos hbreakBit, hbreakCode]
    exact decodeBreak_ordinary hcode hother

end

private theorem decodeBytes_singleton (k : Keyboard) (b : UInt8) :
    k.decodeBytes [b] = (k.decodeByte b).map Prod.fst := by
  rw [decodeBytes,List.foldlM_cons]
  cases k.decodeByte b <;> rfl

private theorem decodeBytes_append (k : Keyboard) (l₁ l₂ : List UInt8) :
    k.decodeBytes (l₁ ++ l₂) = (k.decodeBytes l₁).bind fun k => k.decodeBytes l₂ := by
  rw [decodeBytes,List.foldlM_append]
  rfl

private theorem decodeBytes_prefixed (gather : KeyEvent) (leds : Flags Led) (extended : Bool) (b : UInt8) :
    (⟨0,gather,leds⟩ : Keyboard).decodeBytes ((if extended then [PREFIX1] else []) ++ [b]) =
      ((⟨if extended then PREFIX1 else 0,gather,leds⟩ : Keyboard).decodeByte b).map Prod.fst := by
  cases extended with
  | false => exact decodeBytes_singleton _ b
  | true => exact decodeBytes_singleton ⟨PREFIX1,gather,leds⟩ b

/-- The bytes of one action update what the driver knows. -/
private theorem tracks_action {k : Keyboard} {down : PhysicalKey → Bool} {shift : Bool} (h : k.Tracks down shift)
    (a : KeyAction) : ∃ k', k.decodeBytes a.bytes = some k' ∧
      k'.Tracks (Function.update down a.key a.pressed) (if a.key.otherShift.isSome then a.pressed else shift) := by
  obtain ⟨p,gather,leds⟩ := k
  obtain ⟨rfl,hal,har,hcl,hcr,hs⟩ := h
  obtain ⟨key,pressed⟩ := a
  cases key with
  | ordinary extended code =>
    obtain ⟨k',flag,hk',hkeeps⟩ := decodeByte_ordinary ⟨if extended then PREFIX1 else 0,gather,leds⟩ code.2.1 code.2.2
      pressed
    have hflag : ∀ f, f ∉ [KeyModifier.capsLock,.numLock,.scrollLock] → k'.gather.modifiers f = gather.modifiers f :=
      hkeeps.2
    have hbytes : (⟨0,gather,leds⟩ : Keyboard).decodeBytes (KeyAction.bytes ⟨.ordinary extended code,pressed⟩) =
        some k' := by
      rw [KeyAction.bytes,PhysicalKey.extended,decodeBytes_prefixed]
      exact congrArg (Option.map Prod.fst) hk'
    refine ⟨k',hbytes,hkeeps.1,?_⟩
    rw [hflag _ (by decide),hflag _ (by decide),hflag _ (by decide),hflag _ (by decide),hflag _ (by decide)]
    exact ⟨hal,har,hcl,hcr,hs⟩
  | shiftLeft => cases pressed <;> exact ⟨_,rfl,rfl,hal,har,hcl,hcr,rfl⟩
  | shiftRight => cases pressed <;> exact ⟨_,rfl,rfl,hal,har,hcl,hcr,rfl⟩
  | altLeft => cases pressed <;> exact ⟨_,rfl,rfl,rfl,har,hcl,hcr,hs⟩
  | altRight => cases pressed <;> exact ⟨_,rfl,rfl,hal,rfl,hcl,hcr,hs⟩
  | ctrlLeft => cases pressed <;> exact ⟨_,rfl,rfl,hal,har,rfl,hcr,hs⟩
  | ctrlRight => cases pressed <;> exact ⟨_,rfl,rfl,hal,har,hcl,rfl,hs⟩

/-! ### Whole sequences -/

/-- The last action of a Shift key. -/
private def lastShift (actions : List KeyAction) : Bool :=
  actions.foldl (fun shift a => if a.key.otherShift.isSome then a.pressed else shift) false

private theorem held_concat (actions : List KeyAction) (a : KeyAction) :
    held (actions ++ [a]) = Function.update (held actions) a.key a.pressed := by
  rw [held,List.foldl_append]
  rfl

private theorem lastShift_concat (actions : List KeyAction) (a : KeyAction) :
    lastShift (actions ++ [a]) = if a.key.otherShift.isSome then a.pressed else lastShift actions := by
  rw [lastShift,List.foldl_append]
  rfl

private theorem tracks_actions (actions : List KeyAction) :
    ∃ k, new.decodeBytes (actions.flatMap KeyAction.bytes) = some k ∧ k.Tracks (held actions) (lastShift actions) := by
  induction actions using List.reverseRecOn with
  | nil => exact ⟨new,rfl,rfl,rfl,rfl,rfl,rfl,rfl⟩
  | append_singleton actions a ih =>
    obtain ⟨k,hk,htracks⟩ := ih
    obtain ⟨k',hk',htracks'⟩ := tracks_action htracks a
    refine ⟨k',?_,?_⟩
    · rw [List.flatMap_append,decodeBytes_append,hk,List.flatMap_singleton]
      exact hk'
    · rw [held_concat,lastShift_concat]
      exact htracks'

private theorem shiftLetGo_concat_other {actions : List KeyAction} {a : KeyAction} (ha : a.key.otherShift = none) :
    ShiftLetGo (actions ++ [a]) ↔ ShiftLetGo actions := by
  constructor
  · intro h
    obtain ⟨before,key,other,after,hsplit,hkey,hheld,hafter⟩ := h
    rcases List.eq_nil_or_concat after with hnil | ⟨after',last,hlast⟩
    · rw [hnil] at hsplit
      have hends := (List.append_inj' hsplit rfl).2
      simp_all
    · rw [hlast,List.concat_eq_append,← List.cons_append,← List.append_assoc] at hsplit
      have hfront := (List.append_inj' hsplit rfl).1
      refine ⟨before,key,other,after',hfront,hkey,hheld,fun b hb => hafter b ?_⟩
      rw [hlast,List.concat_eq_append]
      exact List.mem_append_left _ hb
  · intro h
    obtain ⟨before,key,other,after,hsplit,hkey,hheld,hafter⟩ := h
    refine ⟨before,key,other,after ++ [a],?_,hkey,hheld,fun b hb => ?_⟩
    · rw [hsplit,List.append_assoc,List.cons_append]
    · rcases List.mem_append.mp hb with hb | hb
      · exact hafter b hb
      · rw [List.mem_singleton.mp hb,ha]

private theorem shiftLetGo_concat_shift {actions : List KeyAction} {key other : PhysicalKey} {pressed : Bool}
    (ha : key.otherShift = some other) :
    ShiftLetGo (actions ++ [⟨key,pressed⟩]) ↔ pressed = false ∧ held actions other = true := by
  constructor
  · intro h
    obtain ⟨before,key',other',after,hsplit,hkey,hheld,hafter⟩ := h
    rcases List.eq_nil_or_concat after with hnil | ⟨after',last,hlast⟩
    · rw [hnil] at hsplit
      obtain ⟨hfront,hends⟩ := List.append_inj' hsplit rfl
      simp_all
    · rw [hlast,List.concat_eq_append,← List.cons_append,← List.append_assoc] at hsplit
      have hends : (⟨key,pressed⟩ : KeyAction) = last := (List.cons.inj (List.append_inj' hsplit rfl).2).1
      have hnone := hafter last (by simp [hlast])
      rw [← hends,ha] at hnone
      exact nomatch hnone
  · intro h
    obtain ⟨hpressed,hheld⟩ := h
    exact ⟨actions,key,other,[],by rw [hpressed],ha,hheld,by simp⟩

/-- The flag is wrong exactly when a Shift key was let go last while the other one stays down. -/
private theorem lastShift_eq_iff (actions : List KeyAction) :
    lastShift actions = (held actions .shiftLeft || held actions .shiftRight) ↔ ¬ ShiftLetGo actions := by
  induction actions using List.reverseRecOn with
  | nil =>
    refine iff_of_true rfl ?_
    intro h
    obtain ⟨before,key,other,after,hsplit,_⟩ := h
    simp at hsplit
  | append_singleton actions a ih =>
    obtain ⟨key,pressed⟩ := a
    rw [lastShift_concat,held_concat]
    cases key with
    | shiftLeft =>
      rw [shiftLetGo_concat_shift rfl]
      cases pressed <;> simp [PhysicalKey.otherShift]
    | shiftRight =>
      rw [shiftLetGo_concat_shift rfl]
      cases pressed <;> simp [PhysicalKey.otherShift]
    | _ =>
      rw [shiftLetGo_concat_other rfl,← ih]
      simp [PhysicalKey.otherShift]

/-- After any makes and breaks of keys with table entries, the modifiers are the keys that are down exactly when the
last action of the Shift keys is not the release of one of them while the other stays down. -/
theorem modifiers_follow_keys_iff (actions : List KeyAction) :
    (∃ k, new.decodeBytes (actions.flatMap KeyAction.bytes) = some k ∧
      FollowKeys k.gather.modifiers (held actions)) ↔ ¬ ShiftLetGo actions := by
  obtain ⟨k,hk,_,hal,har,hcl,hcr,hs⟩ := tracks_actions actions
  rw [← lastShift_eq_iff,← hs]
  constructor
  · intro h
    obtain ⟨k',hk',hfollow⟩ := h
    rw [hk,Option.some.injEq] at hk'
    rw [hk']
    exact hfollow.2.2.2.2
  · intro h
    exact ⟨k,hk,hal,har,hcl,hcr,h⟩

/-- Both Shift keys go down and the left one goes up: the right one is down, and the flag is clear. -/
theorem shift_flag_lost : Alternates [⟨.shiftLeft,true⟩,⟨.shiftRight,true⟩,⟨.shiftLeft,false⟩] ∧
    held [⟨.shiftLeft,true⟩,⟨.shiftRight,true⟩,⟨.shiftLeft,false⟩] .shiftRight = true ∧
    ∃ k, new.decodeBytes [0x2a,0x36,0xaa] = some k ∧ k.gather.modifiers.contains .shift = false := by
  refine ⟨?_,by decide,_,rfl,rfl⟩
  intro before a after hsplit hpressed
  match before with
  | [] =>
    obtain ⟨rfl,_⟩ := List.cons.inj hsplit
    exact nomatch hpressed
  | [_] =>
    obtain ⟨_,hsplit⟩ := List.cons.inj hsplit
    obtain ⟨rfl,_⟩ := List.cons.inj hsplit
    exact nomatch hpressed
  | [_,_] =>
    simp only [List.cons_append, List.nil_append, List.cons.injEq] at hsplit
    obtain ⟨rfl,rfl,rfl,_⟩ := hsplit
    decide
  | _ :: _ :: _ :: _ => simp at hsplit

end HeineOS.Keyboard
