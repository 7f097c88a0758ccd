import HeineOS.Device.Pci

/-! Writes to the configuration space, and how accesses of 8, 16 and 32 bits fit together. -/
namespace HeineOS.Pci

/-- The byte `k` of a value, the lowest one first. -/
def lane {w : Nat} (x : BitVec w) (k : Nat) : BitVec 8 := x.extractLsb' (8 * k) 8

/-- The addresses select the same dword of the same function. -/
def SameDword (a b : BitVec 32) : Prop :=
  a.extractLsb' 16 8 = b.extractLsb' 16 8 ∧ a.extractLsb' 11 5 = b.extractLsb' 11 5 ∧
    a.extractLsb' 8 3 = b.extractLsb' 8 3 ∧ a.extractLsb' 0 8 &&& 0xfc = b.extractLsb' 0 8 &&& 0xfc

instance (a b : BitVec 32) : Decidable (SameDword a b) := inferInstanceAs (Decidable (_ ∧ _))

/-- A word written to the data port while the address port holds `address`; the registers keep what is written. -/
def writeDataPort (c : ConfigSpace) (address value : BitVec 32) : ConfigSpace := fun bus device function offset =>
  if address.extractLsb' 16 8 = bus ∧ address.extractLsb' 11 5 = device ∧ address.extractLsb' 8 3 = function ∧
      address.extractLsb' 0 8 &&& 0xfc = offset &&& 0xfc then
    lane value (offset &&& 3).toNat
  else c bus device function offset

def write32 (c : ConfigSpace) (bus device function offset : BitVec 8) (value : BitVec 32) : ConfigSpace :=
  writeDataPort c (calcConfigAddress bus device function offset) value

/-- Clear the bits of the half, and set the new value. -/
def insert16 (data : BitVec 32) (offset : BitVec 8) (value : BitVec 16) : BitVec 32 :=
  (data &&& ~~~ ((0xffff : BitVec 32) <<< ((offset &&& 0x02) * 8))) ||| (value.setWidth 32 <<< ((offset &&& 0x02) * 8))

def write16 (c : ConfigSpace) (bus device function offset : BitVec 8) (value : BitVec 16) : ConfigSpace :=
  let data := read32 c bus device function offset
  write32 c bus device function offset (insert16 data offset value)

/-- Clear the bits of the byte, and set the new value. -/
def insert8 (data : BitVec 32) (offset : BitVec 8) (value : BitVec 8) : BitVec 32 :=
  (data &&& ~~~ ((0xff : BitVec 32) <<< ((offset &&& 0x03) * 8))) ||| (value.setWidth 32 <<< ((offset &&& 0x03) * 8))

def write8 (c : ConfigSpace) (bus device function offset : BitVec 8) (value : BitVec 8) : ConfigSpace :=
  let data := read32 c bus device function offset
  write32 c bus device function offset (insert8 data offset value)

inductive Width where
  | byte | word | dword
  deriving DecidableEq, Repr

namespace Width

def bytes : Width → Nat
  | byte => 1
  | word => 2
  | dword => 4

/-- The first byte of the dword that an access reads or writes. -/
def start (offset : BitVec 8) : Width → Nat
  | byte => (offset &&& 0x03).toNat
  | word => (offset &&& 0x02).toNat
  | dword => 0

def read (c : ConfigSpace) (bus device function offset : BitVec 8) : (w : Width) → BitVec (8 * w.bytes)
  | byte => read8 c bus device function offset
  | word => read16 c bus device function offset
  | dword => read32 c bus device function offset

def write (c : ConfigSpace) (bus device function offset : BitVec 8) : (w : Width) → BitVec (8 * w.bytes) → ConfigSpace
  | byte,value => write8 c bus device function offset value
  | word,value => write16 c bus device function offset value
  | dword,value => write32 c bus device function offset value

/-- What a write makes of the dword. -/
def insert (data : BitVec 32) (offset : BitVec 8) : (w : Width) → BitVec (8 * w.bytes) → BitVec 32
  | byte,value => insert8 data offset value
  | word,value => insert16 data offset value
  | dword,value => value

end Width

section
variable {c : ConfigSpace} {address address' value : BitVec 32}

@[simp] theorem lane_getLsbD {w : Nat} (x : BitVec w) (k j : Nat) :
    (lane x k).getLsbD j = (decide (j < 8) && x.getLsbD (8 * k + j)) := BitVec.getLsbD_extractLsb' ..

/-- A value is its bytes. -/
theorem eq_of_lanes {n : Nat} {x y : BitVec (8 * n)} (h : ∀ k < n, lane x k = lane y k) : x = y := by
  apply BitVec.eq_of_getLsbD_eq
  intro i hi
  have hmod : i % 8 < 8 := Nat.mod_lt _ (by decide)
  have hlane := congrArg (BitVec.getLsbD · (i % 8)) (h (i / 8) (by omega))
  simp only [lane_getLsbD, hmod, decide_true, Bool.true_and, Nat.div_add_mod] at hlane
  exact hlane

theorem lane_word (f : BitVec 8 → BitVec 8) {k : Nat} (hk : k < 4) : lane (word f) k = f (BitVec.ofNat 8 k) := by
  apply BitVec.eq_of_getLsbD_eq
  intro j hj
  rw [lane_getLsbD,word]
  interval_cases k
  all_goals
    simp
    grind

private theorem low_mask : ∀ (o : BitVec 8) (k : Nat), k < 4 →
    (o &&& 0xfc ||| BitVec.ofNat 8 k) &&& 0xfc = o &&& 0xfc ∧ ((o &&& 0xfc ||| BitVec.ofNat 8 k) &&& 3).toNat = k := by
  decide +kernel

/-- The data port is a register: it reads what was written to it, and what was written to others does not change it. -/
theorem dataPort_writeDataPort :
    dataPort (writeDataPort c address value) address' =
      if SameDword address address' then value else dataPort c address' := by
  apply eq_of_lanes (n := 4)
  intro k hk
  obtain ⟨hhigh,hlow⟩ := low_mask (address'.extractLsb' 0 8) k hk
  rw [dataPort,lane_word _ hk,writeDataPort,hhigh,hlow]
  by_cases hsame : SameDword address address'
  · rw [if_pos hsame]
    exact if_pos hsame
  · rw [if_neg hsame,dataPort,lane_word _ hk]
    exact if_neg hsame

/-- With a mask and a shift the bytes from `s` on are replaced, and the others stay. -/
private theorem lane_field {n s k : Nat} {mask : BitVec 32} (hmask : ∀ i < 32, mask.getLsbD i = decide (i < 8 * n))
    (data : BitVec 32) (v : BitVec (8 * n)) (hk : k < 4) :
    lane ((data &&& ~~~ (mask <<< (8 * s))) ||| (v.setWidth 32 <<< (8 * s))) k =
      if s ≤ k ∧ k < s + n then lane v (k - s) else lane data k := by
  apply BitVec.eq_of_getLsbD_eq
  intro j hj
  have hi : 8 * k + j < 32 := by omega
  have hshifted := hmask (8 * k + j - 8 * s) (by omega)
  rw [lane_getLsbD,apply_ite (BitVec.getLsbD · j),lane_getLsbD,lane_getLsbD]
  simp only [BitVec.getLsbD_or, BitVec.getLsbD_and, BitVec.getLsbD_not, BitVec.getLsbD_shiftLeft,
    BitVec.getLsbD_setWidth, hi, hj, hshifted, decide_true, Bool.true_and]
  by_cases hlow : s ≤ k
  · have hsub : 8 * k + j - 8 * s = 8 * (k - s) + j := by omega
    by_cases hhigh : k < s + n
    · simp [hlow, hhigh, hsub, show ¬ 8 * k + j < 8 * s by omega, show 8 * (k - s) + j < 8 * n by omega,
        show 8 * (k - s) + j < 32 by omega]
    · have hout : v.getLsbD (8 * (k - s) + j) = false := BitVec.getLsbD_of_ge v _ (by omega)
      simp [hhigh, hsub, hout, show ¬ 8 * (k - s) + j < 8 * n by omega]
  · simp [hlow, show 8 * k + j < 8 * s by omega]

private theorem lane_shifted {n s k : Nat} {mask : BitVec 32} (hmask : ∀ i < 32, mask.getLsbD i = decide (i < 8 * n))
    (data : BitVec 32) (hk : k < n) (hs : s + n ≤ 4) :
    lane (((data >>> (8 * s)) &&& mask).setWidth (8 * n)) k = lane data (s + k) := by
  apply BitVec.eq_of_getLsbD_eq
  intro j hj
  have hbit := hmask (8 * k + j) (by omega)
  have hsum : 8 * s + (8 * k + j) = 8 * (s + k) + j := by omega
  rw [lane_getLsbD,lane_getLsbD]
  simp [hj, hbit, hsum, show 8 * k + j < 8 * n by omega]

private theorem shift_toNat : ∀ o : BitVec 8, ((o &&& 3) * 8).toNat = 8 * (o &&& 3).toNat ∧
    ((o &&& 2) * 8).toNat = 8 * (o &&& 2).toNat ∧ (o &&& 3).toNat ≤ 3 ∧ (o &&& 2).toNat ≤ 2 := by decide +kernel

private theorem mask8 : ∀ i < 32, (0xff : BitVec 32).getLsbD i = decide (i < 8 * 1) := by decide
private theorem mask16 : ∀ i < 32, (0xffff : BitVec 32).getLsbD i = decide (i < 8 * 2) := by decide

theorem Width.start_add_bytes_le (w : Width) (offset : BitVec 8) : w.start offset + w.bytes ≤ 4 := by
  obtain ⟨-,-,h3,h2⟩ := shift_toNat offset
  cases w with
  | byte => exact Nat.succ_le_succ h3
  | word => exact Nat.add_le_add_right h2 2
  | dword => exact le_rfl

private theorem lane_insert8 (data : BitVec 32) (offset value : BitVec 8) {k : Nat} (hk : k < 4) :
    lane (insert8 data offset value) k =
      if (offset &&& 3).toNat ≤ k ∧ k < (offset &&& 3).toNat + 1 then lane value (k - (offset &&& 3).toNat)
      else lane data k := by
  rw [insert8,BitVec.shiftLeft_eq',BitVec.shiftLeft_eq',(shift_toNat offset).1]
  exact lane_field mask8 data value hk

private theorem lane_insert16 (data : BitVec 32) (offset : BitVec 8) (value : BitVec 16) {k : Nat} (hk : k < 4) :
    lane (insert16 data offset value) k =
      if (offset &&& 2).toNat ≤ k ∧ k < (offset &&& 2).toNat + 2 then lane value (k - (offset &&& 2).toNat)
      else lane data k := by
  rw [insert16,BitVec.shiftLeft_eq',BitVec.shiftLeft_eq',(shift_toNat offset).2.1]
  exact lane_field mask16 data value hk

/-- A write replaces its bytes of the dword. -/
theorem lane_insert (data : BitVec 32) (offset : BitVec 8) (w : Width) (v : BitVec (8 * w.bytes)) {k : Nat}
    (hk : k < 4) :
    lane (w.insert data offset v) k =
      if w.start offset ≤ k ∧ k < w.start offset + w.bytes then lane v (k - w.start offset) else lane data k := by
  cases w with
  | byte => exact lane_insert8 data offset v hk
  | word => exact lane_insert16 data offset v hk
  | dword =>
    have hall : Width.dword.start offset ≤ k ∧ k < Width.dword.start offset + Width.dword.bytes :=
      ⟨Nat.zero_le _,by simpa [Width.start, Width.bytes] using hk⟩
    rw [if_pos hall]
    rfl

private theorem lane_read8 (c : ConfigSpace) (bus device function offset : BitVec 8) {k : Nat} (hk : k < 1) :
    lane (read8 c bus device function offset) k =
      lane (read32 c bus device function offset) ((offset &&& 3).toNat + k) := by
  obtain ⟨h8,-,hle,-⟩ := shift_toNat offset
  rw [read8,BitVec.ushiftRight_eq',h8]
  exact lane_shifted mask8 _ hk (Nat.succ_le_succ hle)

private theorem lane_read16 (c : ConfigSpace) (bus device function offset : BitVec 8) {k : Nat} (hk : k < 2) :
    lane (read16 c bus device function offset) k =
      lane (read32 c bus device function offset) ((offset &&& 2).toNat + k) := by
  obtain ⟨-,h16,-,hle⟩ := shift_toNat offset
  rw [read16,BitVec.ushiftRight_eq',h16]
  exact lane_shifted mask16 _ hk (Nat.add_le_add_right hle 2)

/-- A read gives its bytes of the dword. -/
theorem lane_read (c : ConfigSpace) (bus device function offset : BitVec 8) (w : Width) {k : Nat} (hk : k < w.bytes) :
    lane (w.read c bus device function offset) k =
      lane (read32 c bus device function offset) (w.start offset + k) := by
  cases w with
  | byte => exact lane_read8 c bus device function offset hk
  | word => exact lane_read16 c bus device function offset hk
  | dword =>
    rw [Width.start,Nat.zero_add]
    rfl

theorem write_eq (c : ConfigSpace) (bus device function offset : BitVec 8) (w : Width) (v : BitVec (8 * w.bytes)) :
    w.write c bus device function offset v =
      writeDataPort c (calcConfigAddress bus device function offset)
        (w.insert (dataPort c (calcConfigAddress bus device function offset)) offset v) := by
  cases w <;> rfl

end

/-- An access of some width, aligned to it, to a register of a function. -/
structure Access where
  width : Width
  bus : BitVec 8
  device : BitVec 8
  function : BitVec 8
  offset : BitVec 8
  aligned : offset.toNat % width.bytes = 0

namespace Access

def read (a : Access) (c : ConfigSpace) : BitVec (8 * a.width.bytes) :=
  a.width.read c a.bus a.device a.function a.offset

def write (a : Access) (c : ConfigSpace) (value : BitVec (8 * a.width.bytes)) : ConfigSpace :=
  a.width.write c a.bus a.device a.function a.offset value

def SameFunction (a b : Access) : Prop := a.bus = b.bus ∧ a.device = b.device ∧ a.function = b.function

/-- The numbers of the device and the function fit into their fields of the address. -/
def InRange (a : Access) : Prop := a.device.toNat < 2^5 ∧ a.function.toNat < 2^3

/-- The addresses tell whether the accesses are to the same function. -/
def Resolved (a b : Access) : Prop := a.SameFunction b ∨ (a.InRange ∧ b.InRange)

/-- The byte `i` of the second access is among the bytes of the first one. -/
def Covers (a b : Access) (i : Nat) : Prop :=
  a.SameFunction b ∧ a.offset.toNat ≤ b.offset.toNat + i ∧ b.offset.toNat + i < a.offset.toNat + a.width.bytes

instance (a b : Access) (i : Nat) : Decidable (a.Covers b i) := inferInstanceAs (Decidable ((_ ∧ _ ∧ _) ∧ _))

variable {a b : Access}

private theorem offset_parts : ∀ o : BitVec 8, (o &&& 3).toNat = o.toNat % 4 ∧
    (o.toNat % 2 = 0 → (o &&& 2).toNat = o.toNat % 4) ∧ (o &&& 0xfc &&& 0xfc).toNat = o.toNat / 4 * 4 := by
  decide +kernel

theorem start_eq (a : Access) : a.width.start a.offset = a.offset.toNat % 4 := by
  obtain ⟨h8,h16,-⟩ := offset_parts a.offset
  have haligned := a.aligned
  generalize a.width = w at haligned
  cases w with
  | byte => exact h8
  | word => exact h16 haligned
  | dword => exact haligned.symm

private theorem setWidth_inj {n : Nat} {x y : BitVec 8} (hx : x.toNat < 2^n) (hy : y.toNat < 2^n) :
    x.setWidth n = y.setWidth n ↔ x = y := by
  rw [← BitVec.toNat_inj,← BitVec.toNat_inj,BitVec.toNat_setWidth,BitVec.toNat_setWidth,Nat.mod_eq_of_lt hx,
    Nat.mod_eq_of_lt hy]

def address (a : Access) : BitVec 32 := calcConfigAddress a.bus a.device a.function a.offset

private theorem high_bit_congr (bus device function offset offset' : BitVec 8) {i : Nat} (hi : 8 ≤ i) :
    (calcConfigAddress bus device function offset).getLsbD i =
      (calcConfigAddress bus device function offset').getLsbD i := by
  have hmask : (0xfc : BitVec 32).getLsbD i = false := high_bit (show _ < 2^8 by decide) hi
  simp only [calcConfigAddress, BitVec.getLsbD_or, BitVec.getLsbD_and, hmask, Bool.and_false]

/-- The fields above the lowest byte do not depend on the offset. -/
private theorem field_congr (bus device function offset offset' : BitVec 8) (n w : Nat) (hn : 8 ≤ n) :
    (calcConfigAddress bus device function offset).extractLsb' n w =
      (calcConfigAddress bus device function offset').extractLsb' n w := by
  apply BitVec.eq_of_getLsbD_eq
  intro i hi
  rw [BitVec.getLsbD_extractLsb',BitVec.getLsbD_extractLsb',high_bit_congr _ _ _ offset offset' (by omega)]

theorem sameDword_iff (h : a.Resolved b) :
    SameDword a.address b.address ↔ a.SameFunction b ∧ a.offset.toNat / 4 = b.offset.toNat / 4 := by
  have hoffset : a.offset &&& 0xfc &&& 0xfc = b.offset &&& 0xfc &&& 0xfc ↔
      a.offset.toNat / 4 = b.offset.toNat / 4 := by
    rw [← BitVec.toNat_inj,(offset_parts a.offset).2.2,(offset_parts b.offset).2.2]
    omega
  rw [SameDword,address,address,address_offset,address_offset,hoffset]
  rcases h with hsame | ⟨ha,hb⟩
  · obtain ⟨hbus,hdevice,hfunction⟩ := hsame
    rw [hbus,hdevice,hfunction,field_congr _ _ _ a.offset b.offset 16 8 (by decide),
      field_congr _ _ _ a.offset b.offset 11 5 (by decide),field_congr _ _ _ a.offset b.offset 8 3 (by decide)]
    simp only [true_and, SameFunction, hbus, hdevice, hfunction]
  · rw [address_bus _ ha.1 ha.2,address_bus _ hb.1 hb.2,address_device _ ha.2,address_device _ hb.2,
      address_function,address_function,setWidth_inj ha.1 hb.1,setWidth_inj ha.2 hb.2,SameFunction,and_assoc,and_assoc]

/-- A read gives, byte for byte, what a write before it has written, and elsewhere what was there. -/
theorem lane_read_write (h : a.Resolved b) (c : ConfigSpace) (v : BitVec (8 * a.width.bytes)) {i : Nat}
    (hi : i < b.width.bytes) :
    lane (b.read (a.write c v)) i =
      if a.Covers b i then lane v (b.offset.toNat + i - a.offset.toNat) else lane (b.read c) i := by
  have ha := a.start_eq
  have hb := b.start_eq
  have hend := b.width.start_add_bytes_le b.offset
  have hread (c : ConfigSpace) : lane (b.read c) i = lane (dataPort c b.address) (b.width.start b.offset + i) :=
    lane_read c b.bus b.device b.function b.offset b.width hi
  have hwrite : a.write c v = writeDataPort c a.address (a.width.insert (dataPort c a.address) a.offset v) :=
    write_eq ..
  rw [hread,hread,hwrite,dataPort_writeDataPort]
  by_cases hsame : SameDword a.address b.address
  · have hregister : dataPort c a.address = dataPort c b.address := by
      obtain ⟨hbus,hdevice,hfunction,hoffset⟩ := hsame
      rw [dataPort,dataPort,hbus,hdevice,hfunction,hoffset]
    obtain ⟨hf,hq⟩ := (sameDword_iff h).mp hsame
    rw [if_pos hsame,lane_insert _ _ _ _ (by omega),hregister]
    have hcovers : a.Covers b i ↔ a.width.start a.offset ≤ b.width.start b.offset + i ∧
        b.width.start b.offset + i < a.width.start a.offset + a.width.bytes := by
      rw [Covers,ha,hb]
      constructor
      · intro h
        omega
      · intro h
        exact ⟨hf,by omega,by omega⟩
    have hindex : b.width.start b.offset + i - a.width.start a.offset = b.offset.toNat + i - a.offset.toNat := by omega
    rw [if_congr hcovers.symm rfl rfl,hindex]
  · have haend := a.width.start_add_bytes_le a.offset
    have hcovers : ¬ a.Covers b i := by
      intro h
      obtain ⟨hf,hlow,hhigh⟩ := h
      exact hsame ((sameDword_iff h).mpr ⟨hf,by omega⟩)
    rw [if_neg hsame,if_neg hcovers]

/-- What is written is read back, byte by byte in every access that overlaps; an access that shares no byte, and one to
another function or dword, does not see it. -/
theorem access_law (a : Access) (c : ConfigSpace) (v : BitVec (8 * a.width.bytes)) :
    a.read (a.write c v) = v ∧
    (∀ b : Access, a.Resolved b → ∀ i < b.width.bytes, lane (b.read (a.write c v)) i =
      if a.Covers b i then lane v (b.offset.toNat + i - a.offset.toNat) else lane (b.read c) i) ∧
    (∀ b : Access, a.Resolved b → (∀ i < b.width.bytes, ¬ a.Covers b i) → b.read (a.write c v) = b.read c) ∧
    ∀ b : Access, a.Resolved b → (a.bus ≠ b.bus ∨ a.device ≠ b.device ∨ a.function ≠ b.function ∨
      a.offset.toNat / 4 ≠ b.offset.toNat / 4) → b.read (a.write c v) = b.read c := by
  have hapart (b : Access) (h : a.Resolved b) (hnone : ∀ i < b.width.bytes, ¬ a.Covers b i) :
      b.read (a.write c v) = b.read c := by
    apply eq_of_lanes
    intro i hi
    rw [lane_read_write h c v hi,if_neg (hnone i hi)]
  refine ⟨?_,fun b h i hi => lane_read_write h c v hi,hapart,?_⟩
  · have hself : a.Resolved a := .inl ⟨rfl,rfl,rfl⟩
    apply eq_of_lanes
    intro i hi
    have hcovers : a.Covers a i := ⟨⟨rfl,rfl,rfl⟩,Nat.le_add_right _ _,Nat.add_lt_add_left hi _⟩
    rw [lane_read_write hself c v hi,if_pos hcovers,Nat.add_sub_cancel_left]
  · intro b h hother
    apply hapart b h
    intro i hi hcovers
    obtain ⟨⟨hbus,hdevice,hfunction⟩,hlow,hhigh⟩ := hcovers
    have ha := a.width.start_add_bytes_le a.offset
    have hb := b.width.start_add_bytes_le b.offset
    rw [a.start_eq] at ha
    rw [b.start_eq] at hb
    rcases hother with h | h | h | h
    · exact h hbus
    · exact h hdevice
    · exact h hfunction
    · omega

end Access

end HeineOS.Pci
