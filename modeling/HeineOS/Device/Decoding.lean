import HeineOS.Device.Keyboard

/-! Decoding over whole runs of bytes: which of them panic, and what a key event takes over from the keys before it. -/
namespace HeineOS.Keyboard
variable {k : Keyboard} {b code p : UInt8} {modifiers : KeyModifiers}

/-- The byte without its break bit. -/
def keyCode (b : UInt8) : UInt8 := b &&& ~~~ BREAK_BIT

private theorem keyCode_of_make (h : b &&& BREAK_BIT = 0) : keyCode b = b := by
  have hbits : ∀ x : BitVec 8, x &&& 0x80#8 = 0#8 → x &&& ~~~ 0x80#8 = x := by decide
  apply UInt8.toBitVec_inj.mp
  apply hbits
  exact congrArg UInt8.toBitVec h

/-- A completed key changes neither the modifiers nor the LEDs. -/
theorem completeKey_frame {k' : Keyboard} {pressed flag : Bool} (h : k.completeKey code p pressed = some (k',flag)) :
    k'.prefixByte = k.prefixByte ∧ k'.leds = k.leds ∧ k'.gather.modifiers = k.gather.modifiers := by
  rw [completeKey,parseAsciiCode,Option.map_map,Option.map_eq_some_iff] at h
  obtain ⟨r,_,hk'⟩ := h
  rw [← (Prod.mk.inj hk').1]
  refine ⟨rfl,rfl,?_⟩
  simp only [KeyEvent.setAscii, KeyEvent.setScancode, KeyEvent.setPressed]
  split <;> rfl

/-- The keys that end an event: all but the modifiers and the locks. NumLock with the left control key is Break. -/
def CompletesKey (code : UInt8) (modifiers : KeyModifiers) : Prop :=
  code ∉ [42,54,56,29,58,70] ∧ (code = 69 → modifiers.contains .ctrlLeft = true)

instance : Decidable (CompletesKey code modifiers) := inferInstanceAs (Decidable (_ ∧ _))

private theorem decodeBreak_of_completes (h : CompletesKey code k.gather.modifiers) :
    k.decodeBreak code p = k.completeKey code p false := by
  obtain ⟨hother,hnum⟩ := h
  simp only [List.mem_cons, List.not_mem_nil, or_false, not_or] at hother
  by_cases h69 : code = 69
  · simp [decodeBreak, hnum h69, h69]
  · simp [decodeBreak, hother, h69]

private theorem decodeMake_of_completes (h : CompletesKey code k.gather.modifiers) :
    k.decodeMake code p = k.completeKey code p true := by
  obtain ⟨hother,hnum⟩ := h
  simp only [List.mem_cons, List.not_mem_nil, or_false, not_or] at hother
  by_cases h69 : code = 69
  · simp [decodeMake, hnum h69, h69]
  · simp [decodeMake, hother, h69]

private theorem code_of_not_completes (h : ¬ CompletesKey code modifiers) :
    code ∈ [42,54,56,29,58,70] ∨ (code = 69 ∧ modifiers.contains .ctrlLeft = false) := by
  rw [CompletesKey,not_and_or,not_not,Classical.not_imp,Bool.not_eq_true] at h
  exact h

/-- The other keys change the modifiers and the LEDs only. -/
private theorem decodeBreak_of_not_completes (h : ¬ CompletesKey code k.gather.modifiers) :
    ∃ k', k.decodeBreak code p = some (k',false) := by
  rcases code_of_not_completes h with hcode | ⟨hcode,hctrl⟩
  · simp only [List.mem_cons, List.not_mem_nil, or_false] at hcode
    rw [decodeBreak]
    rcases hcode with rfl | rfl | rfl | rfl | rfl | rfl
    all_goals by_cases hp : p = PREFIX1 <;> simp [hp]
  · simp [decodeBreak, hcode, hctrl]

private theorem decodeMake_of_not_completes (h : ¬ CompletesKey code k.gather.modifiers) :
    ∃ k', k.decodeMake code p = some (k',false) := by
  rcases code_of_not_completes h with hcode | ⟨hcode,hctrl⟩
  · simp only [List.mem_cons, List.not_mem_nil, or_false] at hcode
    rw [decodeMake]
    rcases hcode with rfl | rfl | rfl | rfl | rfl | rfl
    all_goals by_cases hp : p = PREFIX1 <;> simp [hp]
  · simp [decodeMake, hcode, hctrl]

theorem decodeByte_of_completes (hpre : ¬ (b = PREFIX1 ∨ b = PREFIX2))
    (h : CompletesKey (keyCode b) k.gather.modifiers) :
    k.decodeByte b = ({ k with prefixByte := 0 }).completeKey (keyCode b) k.prefixByte (b &&& BREAK_BIT = 0) := by
  rw [decodeByte,if_neg hpre]
  by_cases hbreak : b &&& BREAK_BIT = 0
  · have hcode := keyCode_of_make hbreak
    rw [hcode] at h ⊢
    simp only [hbreak, ne_eq, not_true_eq_false, if_false, decide_true]
    exact decodeMake_of_completes h
  · simp only [hbreak, ne_eq, not_false_eq_true, if_true, decide_false]
    exact decodeBreak_of_completes h

theorem decodeByte_of_not_completes (h : ¬ CompletesKey (keyCode b) k.gather.modifiers) :
    ∃ k', k.decodeByte b = some (k',false) := by
  rw [decodeByte]
  split
  · exact ⟨_,rfl⟩
  · by_cases hbreak : b &&& BREAK_BIT = 0
    · rw [keyCode_of_make hbreak] at h
      simp only [hbreak, ne_eq, not_true_eq_false, if_false]
      exact decodeMake_of_not_completes h
    · simp only [hbreak, ne_eq, not_false_eq_true, if_true]
      exact decodeBreak_of_not_completes h

/-! ### Bytes that panic -/

private theorem isSome_tab {tab : List UInt8} (h : tab.length = 92) :
    (tab[code.toNat]?.map (·,code)).isSome ↔ code < 92 := by
  simp [h, UInt8.lt_iff_toNat_lt]

private theorem isSome_keypad (hlow : code ≥ 71) (hhigh : code ≤ 83) :
    (do let ascii ← ASC_NUM_TAB[(code - 71).toNat]?
        let scancode ← SCAN_NUM_TAB[(code - 71).toNat]?
        return (ascii,scancode) : Option (UInt8 × UInt8)).isSome := by
  have hindex : (code - 71).toNat < 13 := by
    rw [UInt8.toNat_sub_of_le _ _ hlow]
    have htop : code.toNat ≤ 83 := UInt8.le_iff_toNat_le.mp hhigh
    have hbase : (71 : UInt8).toNat = 71 := rfl
    omega
  have hascii : (code - 71).toNat < ASC_NUM_TAB.length := hindex
  have hscan : (code - 71).toNat < SCAN_NUM_TAB.length := hindex
  rw [List.getElem?_eq_getElem hascii,List.getElem?_eq_getElem hscan]
  rfl

/-- The tables hold the codes below 92, and the keypad tables every code that selects them. -/
theorem isSome_translation : (translation code p modifiers).isSome ↔ code < 92 := by
  rw [translation]
  split
  · rename_i hkeypad
    obtain ⟨_,_,hlow,hhigh⟩ := hkeypad
    have hcode : code < 92 := UInt8.lt_of_le_of_lt hhigh (by decide)
    exact iff_of_true (isSome_keypad hlow hhigh) hcode
  · split
    · exact isSome_tab rfl
    split
    · exact isSome_tab rfl
    split
    · split
      · exact isSome_tab rfl
      · exact isSome_tab rfl
    · exact isSome_tab rfl

private theorem code_lt_of_not_completes (h : ¬ CompletesKey code modifiers) : code < 92 := by
  rcases code_of_not_completes h with hcode | ⟨hcode,_⟩
  · simp only [List.mem_cons, List.not_mem_nil, or_false] at hcode
    rcases hcode with rfl | rfl | rfl | rfl | rfl | rfl
    all_goals decide
  · rw [hcode]
    decide

/-- The bytes whose key has table entries, and the prefix bytes. -/
def InTables (b : UInt8) : Prop := b = PREFIX1 ∨ b = PREFIX2 ∨ keyCode b < 92

/-- Whether a byte panics depends on the byte only, not on the prefix, the modifiers and the locks. -/
theorem isSome_decodeByte (k : Keyboard) (b : UInt8) : (k.decodeByte b).isSome ↔ InTables b := by
  by_cases hpre : b = PREFIX1 ∨ b = PREFIX2
  · rw [decodeByte,if_pos hpre]
    exact iff_of_true rfl (hpre.imp id .inl)
  · have hin : InTables b ↔ keyCode b < 92 := by
      rw [InTables,← or_assoc]
      exact or_iff_right hpre
    rw [hin]
    by_cases hc : CompletesKey (keyCode b) k.gather.modifiers
    · rw [decodeByte_of_completes hpre hc,completeKey,parseAsciiCode,Option.isSome_map,Option.isSome_map]
      exact isSome_translation
    · obtain ⟨k',hk'⟩ := decodeByte_of_not_completes hc
      rw [hk']
      exact iff_of_true rfl (code_lt_of_not_completes hc)

/-- Decoding a run of bytes from a new keyboard indexes every table in range exactly when each byte that is no prefix
has a code below 92. -/
theorem decoding_in_range_iff (bytes : List UInt8) :
    (new.decodeBytes bytes).isSome ↔ ∀ b ∈ bytes, InTables b := by
  generalize new = k
  induction bytes generalizing k with
  | nil => simp [decodeBytes]
  | cons b bytes ih =>
    rw [List.forall_mem_cons,← isSome_decodeByte k b,decodeBytes,List.foldlM_cons]
    cases hb : k.decodeByte b with
    | none => simp
    | some r =>
      have hrest := ih r.1
      rw [decodeBytes] at hrest
      simpa using hrest

/-- The menu key sends 0xe0 and 0x5d, and the tables end at 0x5b. -/
theorem menu_key_panics : (new.decodeBytes [0xe0,0x5d]).isSome = false := by decide

/-! ### Key events and the keys before them -/

/-- What the selected table holds for the key of a byte. -/
def selectedAscii (k : Keyboard) (b : UInt8) : Option UInt8 :=
  (translation (keyCode b) k.prefixByte k.gather.modifiers).map Prod.fst

/-- The byte ends a key event, and the selected table holds 0 for its key. -/
def CompletesBlank (k : Keyboard) (b : UInt8) : Prop :=
  ¬ (b = PREFIX1 ∨ b = PREFIX2) ∧ CompletesKey (keyCode b) k.gather.modifiers ∧ k.selectedAscii b = some 0

instance : Decidable (CompletesBlank k b) := inferInstanceAs (Decidable (_ ∧ _ ∧ _))

section
variable {k' : Keyboard} {flag : Bool}

/-- Whether a byte ends a key event depends on the byte and the modifiers only. -/
private theorem flag_iff (h : k.decodeByte b = some (k',flag)) :
    flag = true ↔ ¬ (b = PREFIX1 ∨ b = PREFIX2) ∧ CompletesKey (keyCode b) k.gather.modifiers := by
  by_cases hpre : b = PREFIX1 ∨ b = PREFIX2
  · rw [decodeByte,if_pos hpre] at h
    simp_all
  · by_cases hc : CompletesKey (keyCode b) k.gather.modifiers
    · rw [decodeByte_of_completes hpre hc,completeKey,Option.map_eq_some_iff] at h
      obtain ⟨_,_,h⟩ := h
      exact iff_of_true (Prod.mk.inj h).2.symm ⟨hpre,hc⟩
    · obtain ⟨_,hquiet⟩ := decodeByte_of_not_completes hc
      simp_all

/-- The gathered event after a byte that ends one: all of it is new but the character where the table holds 0. -/
private theorem gather_of_decodeByte (h : k.decodeByte b = some (k',true)) :
    ∃ r, translation (keyCode b) k.prefixByte k.gather.modifiers = some r ∧
      k'.gather = ⟨if r.1 ≠ 0 then KeyEvent.charFromU32 r.1.toUInt32 else k.gather.ascii,Scancode.tryFrom r.2,
        k.gather.modifiers,b &&& BREAK_BIT = 0⟩ := by
  obtain ⟨hpre,hc⟩ := (flag_iff h).mp rfl
  rw [decodeByte_of_completes hpre hc,completeKey,parseAsciiCode,Option.map_map,Option.map_eq_some_iff] at h
  obtain ⟨r,hr,hk'⟩ := h
  refine ⟨r,hr,?_⟩
  rw [← (Prod.mk.inj hk').1]
  simp only [KeyEvent.setAscii, KeyEvent.setScancode, KeyEvent.setPressed]
  split <;> rfl

end

/-- Two keyboards with the same modifiers and the same prefix decode a byte to the same key event, with no character
where the selected table holds 0, exactly when neither has a character left over that such a byte would take over. -/
theorem events_forget_earlier_keys_iff (k₁ k₂ k₁' k₂' : Keyboard) (b : UInt8) (flag₁ flag₂ : Bool)
    (hmodifiers : k₁.gather.modifiers = k₂.gather.modifiers) (hpending : k₁.prefixByte = k₂.prefixByte)
    (h₁ : k₁.decodeByte b = some (k₁',flag₁)) (h₂ : k₂.decodeByte b = some (k₂',flag₂)) :
    (flag₁ = flag₂ ∧ (flag₁ = true → k₁'.gather = k₂'.gather ∧
      (k₁.selectedAscii b = some 0 → k₁'.gather.ascii = none))) ↔
    (CompletesBlank k₁ b → k₁.gather.ascii = none ∧ k₂.gather.ascii = none) := by
  have hsame : flag₁ = flag₂ := by
    rw [Bool.eq_iff_iff,flag_iff h₁,flag_iff h₂,hmodifiers]
  cases flag₁ with
  | false =>
    refine iff_of_true ⟨hsame,fun h => nomatch h⟩ ?_
    intro hblank
    exact absurd ((flag_iff h₁).mpr ⟨hblank.1,hblank.2.1⟩) (by decide)
  | true =>
    subst hsame
    obtain ⟨hpre,hc⟩ := (flag_iff h₁).mp rfl
    obtain ⟨r,hr,hgather₁⟩ := gather_of_decodeByte h₁
    obtain ⟨r₂,hr₂,hgather₂⟩ := gather_of_decodeByte h₂
    rw [← hmodifiers,← hpending,hr,Option.some.injEq] at hr₂
    subst hr₂
    have hselected : k₁.selectedAscii b = some r.1 := by rw [selectedAscii,hr,Option.map_some]
    have hblank : CompletesBlank k₁ b ↔ r.1 = 0 := by
      rw [CompletesBlank,hselected,Option.some.injEq]
      exact ⟨fun h => h.2.2,fun h => ⟨hpre,hc,h⟩⟩
    rw [hblank,hselected,hgather₁,hgather₂,hmodifiers]
    by_cases hzero : r.1 = 0
    · simp only [hzero, ne_eq, not_true_eq_false, if_false, KeyEvent.mk.injEq, and_true, true_and, forall_const]
      constructor
      · intro h
        exact ⟨h.2,h.1 ▸ h.2⟩
      · intro h
        exact ⟨h.1.trans h.2.symm,h.1⟩
    · simp [hzero]

theorem events_forget_earlier_keys_letter : ∃ k₂ k₁' k₂', new.decodeBytes [0x1e,0x9e] = some k₂ ∧
    new.decodeByte 0x1f = some (k₁',true) ∧ k₂.decodeByte 0x1f = some (k₂',true) ∧ k₁'.gather = k₂'.gather := by
  have hletter : ¬ CompletesBlank new 0x1f := by decide
  have hkey := events_forget_earlier_keys_iff new ⟨0,⟨some 'a',some .a,Flags.empty,false⟩,Flags.empty⟩ _ _ 0x1f _ _
    rfl rfl rfl rfl
  exact ⟨_,_,_,rfl,rfl,rfl,((hkey.mpr fun h => absurd h hletter).2 rfl).1⟩

/-- A function key after the letter A still carries the letter. -/
theorem stale_ascii : ∃ k₁ k₂ k₁' k₂', new.decodeBytes [] = some k₁ ∧ new.decodeBytes [0x1e,0x9e] = some k₂ ∧
    k₁.gather.modifiers = k₂.gather.modifiers ∧ k₁.prefixByte = k₂.prefixByte ∧
    k₁.decodeByte 0x3b = some (k₁',true) ∧ k₂.decodeByte 0x3b = some (k₂',true) ∧
    k₁.selectedAscii 0x3b = some 0 ∧ k₁'.gather.ascii = none ∧ k₂'.gather.ascii = some 'a' :=
  ⟨_,_,_,_,rfl,rfl,rfl,rfl,rfl,rfl,by decide,rfl,rfl⟩

end HeineOS.Keyboard
