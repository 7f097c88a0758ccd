import HeineOS.Lib.Walk
import Mathlib.Data.List.Nodup
import Mathlib.Tactic.IntervalCases

/-! Enumeration of the functions on the PCI buses through the configuration ports, against the functions
that the configuration space holds. -/
namespace HeineOS
open Lib

/-- The byte at an offset for each bus, device and function. -/
abbrev ConfigSpace := BitVec 8 → BitVec 5 → BitVec 3 → BitVec 8 → BitVec 8

structure PciDevice where
  bus : BitVec 8
  device : BitVec 8
  function : BitVec 8
  deriving DecidableEq, Repr

namespace Pci

def maxDevicesPerBus : Nat := 32
def maxFunctionsPerDevice : Nat := 8
def invalidVendorId : BitVec 16 := 0xffff

inductive Register where
  | vendorId
  | subclass
  | «class»
  | headerType
  | secondaryBus

def Register.offset : Register → BitVec 8
  | vendorId => 0x00
  | subclass => 0x0a
  | «class» => 0x0b
  | headerType => 0x0e
  | secondaryBus => 0x19

def Class.bridge : BitVec 8 := 0x06
def Bridge.pciToPci : BitVec 8 := 0x04

def calcConfigAddress (bus device function offset : BitVec 8) : BitVec 32 :=
  (1 <<< 31) ||| (bus.setWidth 32 <<< 16) ||| (device.setWidth 32 <<< 11) ||| (function.setWidth 32 <<< 8) |||
    (offset.setWidth 32 &&& 0xfc)

/-- Four bytes, the first one lowest. -/
def word (f : BitVec 8 → BitVec 8) : BitVec 32 := f 3 ++ (f 2 ++ (f 1 ++ f 0))

/-- The word behind the data port while the address port holds `address`. -/
def dataPort (c : ConfigSpace) (address : BitVec 32) : BitVec 32 :=
  word fun i => c (address.extractLsb' 16 8) (address.extractLsb' 11 5) (address.extractLsb' 8 3)
    ((address.extractLsb' 0 8 &&& 0xfc) ||| i)

def read32 (c : ConfigSpace) (bus device function offset : BitVec 8) : BitVec 32 :=
  dataPort c (calcConfigAddress bus device function offset)

def read16 (c : ConfigSpace) (bus device function offset : BitVec 8) : BitVec 16 :=
  ((read32 c bus device function offset >>> ((offset &&& 0x02) * 8)) &&& 0xffff).setWidth 16

def read8 (c : ConfigSpace) (bus device function offset : BitVec 8) : BitVec 8 :=
  ((read32 c bus device function offset >>> ((offset &&& 0x03) * 8)) &&& 0xff).setWidth 8

variable (c : ConfigSpace)

section
variable (scanBus : BitVec 8 → List PciDevice → Option (List PciDevice))

/-- The devices after the check; `none` when the scan of the secondary bus does not end. -/
def checkFunction (devices : List PciDevice) (bus device function : BitVec 8) : Option (List PciDevice) :=
  let baseClass := read8 c bus device function Register.class.offset
  let subClass := read8 c bus device function Register.subclass.offset
  if baseClass = Class.bridge ∧ subClass = Bridge.pciToPci then
    scanBus (read8 c bus device function Register.secondaryBus.offset) devices
  else some (devices ++ [⟨bus,device,function⟩])

def checkDevice (devices : List PciDevice) (bus device : BitVec 8) : Option (List PciDevice) :=
  if read16 c bus device 0 Register.vendorId.offset = invalidVendorId then some devices
  else do
    let devices ← checkFunction c scanBus devices bus device 0
    if read8 c bus device 0 Register.headerType.offset &&& 0x80 ≠ 0 then
      ((List.range' 1 (maxFunctionsPerDevice - 1)).map (BitVec.ofNat 8)).foldlM (fun devices function =>
        if read16 c bus device function Register.vendorId.offset = invalidVendorId then some devices
        else checkFunction c scanBus devices bus device function) devices
    else some devices

end

/-- The fuel bounds the depth of the recursion over secondary buses. -/
def scanBus : Nat → BitVec 8 → List PciDevice → Option (List PciDevice)
  | 0,_,_ => none
  | fuel + 1,bus,devices =>
    ((List.range maxDevicesPerBus).map (BitVec.ofNat 8)).foldlM
      (fun devices device => checkDevice c (scanBus fuel) devices bus device) devices

/-- The loop over the functions of a host controller with several of them. -/
def scanFunctions (fuel : Nat) : List (BitVec 8) → List PciDevice → Option (List PciDevice)
  | [],devices => some devices
  | function :: functions,devices =>
    if read16 c 0 0 function Register.vendorId.offset ≠ invalidVendorId then some devices
    else do
      let devices ← scanBus c fuel function devices
      scanFunctions fuel functions devices

/-- The devices that a scan of a new bus leaves. -/
def scan (fuel : Nat) : Option (List PciDevice) :=
  if read8 c 0 0 0 Register.headerType.offset &&& 0x80 = 0 then scanBus c fuel 0 []
  else scanFunctions c fuel ((List.range maxFunctionsPerDevice).map (BitVec.ofNat 8)) []

/-- The byte at an offset of a function, with its device and function numbers in range. -/
def byte (bus device function offset : BitVec 8) : BitVec 8 :=
  c bus (device.setWidth 5) (function.setWidth 3) offset

/-- A function that answers; the others give the invalid vendor id. -/
def Present (bus device function : BitVec 8) : Prop :=
  byte c bus device function 1 ++ byte c bus device function 0 ≠ invalidVendorId

instance (bus device function : BitVec 8) : Decidable (Present c bus device function) :=
  inferInstanceAs (Decidable (_ ≠ _))

def MultiFunction (bus device : BitVec 8) : Prop := (byte c bus device 0 0x0e).getLsbD 7 = true

instance (bus device : BitVec 8) : Decidable (MultiFunction c bus device) :=
  inferInstanceAs (Decidable (_ = true))

/-- The secondary bus of a PCI-to-PCI bridge. -/
def below (d : PciDevice) : Option (BitVec 8) :=
  if byte c d.bus d.device d.function 0x0b = 0x06 ∧ byte c d.bus d.device d.function 0x0a = 0x04 then
    some (byte c d.bus d.device d.function 0x19)
  else none

/-- The function numbers that count in a device: those above 0 only next to a present function 0 with the
multi-function bit. -/
def functionsOf (bus device : BitVec 8) : List (BitVec 8) :=
  if ¬ Present c bus device 0 then []
  else if MultiFunction c bus device then
    0 :: ((List.range' 1 7).map (BitVec.ofNat 8)).filter fun function => Present c bus device function
  else [0]

def functionsOn (bus : BitVec 8) : List PciDevice :=
  ((List.range 32).map (BitVec.ofNat 8)).flatMap fun device =>
    (functionsOf c bus device).map fun function => ⟨bus,device,function⟩

/-- Buses hold functions, and bridges lead to their secondary bus. -/
def topology : Lib.Graph (BitVec 8) PciDevice := ⟨functionsOn c,below c⟩

def rootBuses : List (BitVec 8) :=
  if MultiFunction c 0 0 then ((List.range 8).map (BitVec.ofNat 8)).filter fun function => Present c 0 0 function
  else [0]

variable {bus device function : BitVec 8}

theorem high_bit {n w : Nat} {x : BitVec w} (hx : x.toNat < 2^n) {i : Nat} (hi : n ≤ i) :
    x.getLsbD i = false :=
  Nat.testBit_lt_two_pow (Nat.lt_of_lt_of_le hx (Nat.pow_le_pow_right (by omega) hi))

theorem address_bus (offset : BitVec 8) (hd : device.toNat < 2^5) (hf : function.toNat < 2^3) :
    (calcConfigAddress bus device function offset).extractLsb' 16 8 = bus := by
  apply BitVec.eq_of_getLsbD_eq
  intro i hi
  have hdevice : device.getLsbD (16 + i - 11) = false := high_bit hd (by omega)
  have hfunction : function.getLsbD (16 + i - 8) = false := high_bit hf (by omega)
  have hmask : (252#32).getLsbD (16 + i) = false := high_bit (show _ < 2^8 by decide) (by omega)
  have henable : (2147483648#32).getLsbD (16 + i) = false := by interval_cases i <;> rfl
  simp [calcConfigAddress, hdevice, hfunction, hmask, henable]
  grind

theorem address_device (offset : BitVec 8) (hf : function.toNat < 2^3) :
    (calcConfigAddress bus device function offset).extractLsb' 11 5 = device.setWidth 5 := by
  apply BitVec.eq_of_getLsbD_eq
  intro i hi
  have hfunction : function.getLsbD (11 + i - 8) = false := high_bit hf (by omega)
  have hmask : (252#32).getLsbD (11 + i) = false := high_bit (show _ < 2^8 by decide) (by omega)
  have henable : (2147483648#32).getLsbD (11 + i) = false := by interval_cases i <;> rfl
  simp [calcConfigAddress, hfunction, hmask, henable]
  grind

theorem address_function (offset : BitVec 8) :
    (calcConfigAddress bus device function offset).extractLsb' 8 3 = function.setWidth 3 := by
  apply BitVec.eq_of_getLsbD_eq
  intro i hi
  have hmask : (252#32).getLsbD (8 + i) = false := high_bit (show _ < 2^8 by decide) (by omega)
  have henable : (2147483648#32).getLsbD (8 + i) = false := by interval_cases i <;> rfl
  simp [calcConfigAddress, hmask, henable]
  grind

theorem address_offset (offset : BitVec 8) :
    (calcConfigAddress bus device function offset).extractLsb' 0 8 = offset &&& 0xfc := by
  apply BitVec.eq_of_getLsbD_eq
  intro i hi
  have hmask : (252#32).getLsbD i = (252#8).getLsbD i := by interval_cases i <;> rfl
  have henable : (2147483648#32).getLsbD i = false := by interval_cases i <;> rfl
  simp [calcConfigAddress, hmask, henable]
  grind

private theorem read32_eq (offset : BitVec 8) (hd : device.toNat < 2^5) (hf : function.toNat < 2^3) :
    read32 c bus device function offset =
      word fun i => byte c bus device function ((offset &&& 0xfc) ||| i) := by
  have hmask : offset &&& 0xfc &&& 0xfc = offset &&& 0xfc := by
    rw [BitVec.and_assoc,BitVec.and_self]
  rw [read32,dataPort,address_bus offset hd hf,address_device offset hf,address_function,address_offset,hmask]
  rfl

private theorem word_byte (f : BitVec 8 → BitVec 8) {i : BitVec 8} (hi : i = 0 ∨ i = 1 ∨ i = 2 ∨ i = 3) :
    (word f >>> (i * 8)).setWidth 8 = f i := by
  apply BitVec.eq_of_getLsbD_eq
  intro j hj
  rw [word]
  rcases hi with rfl | rfl | rfl | rfl
  all_goals
    simp
    grind

private theorem word_half (f : BitVec 8 → BitVec 8) : (word f).setWidth 16 = f 1 ++ f 0 := by
  apply BitVec.eq_of_getLsbD_eq
  intro j hj
  simp [word]
  grind

private theorem low_bits (offset : BitVec 8) :
    (offset &&& 0xfc) ||| (offset &&& 3) = offset ∧
      (offset &&& 3 = 0 ∨ offset &&& 3 = 1 ∨ offset &&& 3 = 2 ∨ offset &&& 3 = 3) := by
  revert offset
  decide +kernel

/-- A read of 8 bits gives the byte at the offset. -/
theorem read8_eq (offset : BitVec 8) (hd : device.toNat < 2^5) (hf : function.toNat < 2^3) :
    read8 c bus device function offset = byte c bus device function offset := by
  obtain ⟨hsum,hlow⟩ := low_bits offset
  have hmask : (0xff : BitVec 32).setWidth 8 = BitVec.allOnes 8 := rfl
  rw [read8,read32_eq c offset hd hf,BitVec.setWidth_and,hmask,BitVec.and_allOnes,word_byte _ hlow,hsum]

/-- The vendor id is in the first two bytes. -/
theorem read16_vendorId (hd : device.toNat < 2^5) (hf : function.toNat < 2^3) :
    read16 c bus device function Register.vendorId.offset =
      byte c bus device function 1 ++ byte c bus device function 0 := by
  have hmask : (0xffff : BitVec 32).setWidth 16 = BitVec.allOnes 16 := rfl
  rw [read16,read32_eq c _ hd hf,BitVec.setWidth_and,hmask,BitVec.and_allOnes]
  exact word_half _

private theorem ofNat_range_lt {l : List Nat} {n : Nat} (hl : ∀ i ∈ l, i < n) {x : BitVec 8}
    (hx : x ∈ l.map (BitVec.ofNat 8)) : x.toNat < n := by
  obtain ⟨i,hi,rfl⟩ := List.mem_map.mp hx
  have hin := hl i hi
  have hle : i % 2^8 ≤ i := Nat.mod_le i (2^8)
  rw [BitVec.toNat_ofNat]
  omega

private theorem header_bit (bus device : BitVec 8) (hd : device.toNat < 2^5) :
    read8 c bus device 0 Register.headerType.offset &&& 0x80 ≠ 0 ↔ MultiFunction c bus device := by
  have hbit : ∀ x : BitVec 8, x &&& 0x80 ≠ 0 ↔ x.getLsbD 7 = true := by decide +kernel
  rw [read8_eq c _ hd (show (0 : BitVec 8).toNat < 2^3 by decide)]
  exact hbit _

private theorem vendor_present (bus : BitVec 8) (hd : device.toNat < 2^5) (hf : function.toNat < 2^3) :
    read16 c bus device function Register.vendorId.offset = invalidVendorId ↔ ¬ Present c bus device function := by
  rw [read16_vendorId c hd hf,Present,not_not]

section
variable (walk : BitVec 8 → List PciDevice → Option (List PciDevice)) (devices : List PciDevice)

private theorem checkFunction_eq (bus : BitVec 8) (hd : device.toNat < 2^5) (hf : function.toNat < 2^3) :
    checkFunction c walk devices bus device function =
      (topology c).visit walk devices ⟨bus,device,function⟩ := by
  simp only [checkFunction, read8_eq c _ hd hf, Graph.visit, topology, below]
  by_cases hb : byte c bus device function 0x0b = 0x06 ∧ byte c bus device function 0x0a = 0x04
  · rw [if_pos hb]
    exact if_pos hb
  · rw [if_neg hb]
    exact if_neg hb

/-- A check of a device visits the functions that count in it. -/
private theorem checkDevice_eq (bus : BitVec 8) (hd : device.toNat < 2^5) :
    checkDevice c walk devices bus device =
      ((functionsOf c bus device).map fun function => ⟨bus,device,function⟩).foldlM
        ((topology c).visit walk) devices := by
  have h0 : (0 : BitVec 8).toNat < 2^3 := by decide
  rw [checkDevice,functionsOf]
  by_cases hp : Present c bus device 0
  · rw [if_neg (mt (vendor_present c bus hd h0).mp (not_not.mpr hp)),if_neg (not_not.mpr hp),
      checkFunction_eq c walk devices bus hd h0]
    by_cases hm : MultiFunction c bus device
    · rw [if_pos hm,List.map_cons,List.foldlM_cons]
      congr 1
      funext devices
      rw [if_pos ((header_bit c bus device hd).mpr hm)]
      conv_rhs => rw [List.foldlM_map,List.foldlM_filter]
      apply foldlM_ext
      intro function hfunction devices
      have hf : function.toNat < 2^3 := by
        apply ofNat_range_lt _ hfunction
        decide
      by_cases hpf : Present c bus device function
      · rw [if_neg (mt (vendor_present c bus hd hf).mp (not_not.mpr hpf)),checkFunction_eq c walk devices bus hd hf]
        simp [hpf]
      · rw [if_pos ((vendor_present c bus hd hf).mpr hpf)]
        simp [hpf]
    · have hheader := mt (header_bit c bus device hd).mp hm
      rw [if_neg hm,List.map_cons,List.foldlM_cons]
      congr 1
      funext devices
      rw [if_neg hheader]
      rfl
  · rw [if_pos ((vendor_present c bus hd h0).mpr hp),if_pos hp]
    rfl

end

/-- A scan is a walk through the topology. -/
theorem scanBus_eq (fuel : Nat) (bus : BitVec 8) (devices : List PciDevice) :
    scanBus c fuel bus devices = (topology c).walk fuel bus devices := by
  induction fuel generalizing bus devices with
  | zero => rfl
  | succ fuel ih =>
    have hscan : scanBus c fuel = (topology c).walk fuel := by
      funext bus devices
      exact ih bus devices
    rw [scanBus,hscan,Graph.walk]
    change _ = (functionsOn c bus).foldlM _ _
    rw [functionsOn,foldlM_flatMap]
    apply foldlM_ext
    intro device hdevice devices
    apply checkDevice_eq
    apply ofNat_range_lt _ hdevice
    decide

/-- The buses that the loop of `scan` goes through before it breaks. -/
def scanned : List (BitVec 8) → List (BitVec 8) := List.takeWhile fun function => ¬ Present c 0 0 function

theorem scanFunctions_eq (fuel : Nat) {functions : List (BitVec 8)} (hf : ∀ f ∈ functions, f.toNat < 2^3)
    (devices : List PciDevice) :
    scanFunctions c fuel functions devices =
      (scanned c functions).foldlM (fun devices bus => (topology c).walk fuel bus devices) devices := by
  induction functions generalizing devices with
  | nil => rfl
  | cons function functions ih =>
    have hv := vendor_present c 0 (show (0 : BitVec 8).toNat < 2^5 by decide) (hf function List.mem_cons_self)
    rw [scanFunctions,scanned]
    by_cases hp : Present c 0 0 function
    · rw [if_pos (mt hv.mp (not_not.mpr hp)),List.takeWhile_cons_of_neg (by simpa using hp)]
      rfl
    · rw [if_neg (not_not.mpr (hv.mpr hp)),List.takeWhile_cons_of_pos (by simpa using hp),List.foldlM_cons,scanBus_eq]
      congr 1
      funext devices
      exact ih (fun f hm => hf f (List.mem_cons_of_mem _ hm)) devices

/-- The functions that an enumeration of `buses` has to list. -/
def Endpoint (buses : List (BitVec 8)) (d : PciDevice) : Prop :=
  d.bus ∈ buses ∧ d.device.toNat < 32 ∧ d.function.toNat < 8 ∧ Present c d.bus d.device 0 ∧
    (d.function = 0 ∨ MultiFunction c d.bus d.device ∧ Present c d.bus d.device d.function) ∧ below c d = none

instance (buses : List (BitVec 8)) (d : PciDevice) : Decidable (Endpoint c buses d) :=
  inferInstanceAs (Decidable (_ ∧ _))

/-- A scan ends, with enough fuel, in the endpoints of `buses`, each once. -/
def Exact (buses : List (BitVec 8)) : Prop :=
  ∃ devices : List PciDevice, devices.Nodup ∧ (∀ d, d ∈ devices ↔ Endpoint c buses d) ∧
    ∃ enough, ∀ fuel ≥ enough, scan c fuel = some devices

private theorem mem_ofNat_range {start n : Nat} (hn : start + n ≤ 256) {x : BitVec 8} :
    x ∈ (List.range' start n).map (BitVec.ofNat 8) ↔ start ≤ x.toNat ∧ x.toNat < start + n := by
  rw [List.mem_map]
  constructor
  · rintro ⟨i,hi,rfl⟩
    rw [List.mem_range'_1] at hi
    rw [BitVec.toNat_ofNat,Nat.mod_eq_of_lt (by omega)]
    exact hi
  · intro hx
    refine ⟨x.toNat,List.mem_range'_1.mpr hx,?_⟩
    rw [BitVec.ofNat_toNat,BitVec.setWidth_eq]

private theorem nodup_ofNat_range {start n : Nat} (hn : start + n ≤ 256) :
    ((List.range' start n).map (BitVec.ofNat 8)).Nodup := by
  apply List.Nodup.map_on _ List.nodup_range'
  intro i hi j hj hij
  rw [List.mem_range'_1] at hi hj
  have h := congrArg BitVec.toNat hij
  rw [BitVec.toNat_ofNat,BitVec.toNat_ofNat,Nat.mod_eq_of_lt (by omega),Nat.mod_eq_of_lt (by omega)] at h
  exact h

private theorem mem_functionsOf :
    function ∈ functionsOf c bus device ↔ function.toNat < 8 ∧ Present c bus device 0 ∧
      (function = 0 ∨ MultiFunction c bus device ∧ Present c bus device function) := by
  have hzero : function = 0 ↔ function.toNat = 0 := BitVec.toNat_inj.symm
  rw [functionsOf]
  by_cases hp : Present c bus device 0
  · rw [if_neg (not_not.mpr hp)]
    by_cases hm : MultiFunction c bus device
    · rw [if_pos hm,List.mem_cons,List.mem_filter,mem_ofNat_range (by decide),decide_eq_true_iff,hzero]
      constructor
      · rintro (h0 | ⟨⟨_,h8⟩,hpf⟩)
        · exact ⟨by omega,hp,.inl h0⟩
        · exact ⟨by omega,hp,.inr ⟨hm,hpf⟩⟩
      · rintro ⟨h8,-,h0 | ⟨-,hpf⟩⟩
        · exact .inl h0
        · by_cases h0 : function.toNat = 0
          · exact .inl h0
          · exact .inr ⟨⟨by omega,by omega⟩,hpf⟩
    · rw [if_neg hm,List.mem_singleton]
      constructor
      · rintro rfl
        exact ⟨by decide,hp,.inl rfl⟩
      · rintro ⟨-,-,h0 | ⟨hm',-⟩⟩
        · exact h0
        · exact absurd hm' hm
  · rw [if_pos hp]
    constructor
    · intro h
      exact absurd h List.not_mem_nil
    · rintro ⟨-,hp',-⟩
      exact absurd hp' hp

private theorem nodup_functionsOf (bus device : BitVec 8) : (functionsOf c bus device).Nodup := by
  have hrange : 1 + 7 ≤ 256 := by decide
  rw [functionsOf]
  split_ifs with hp hm
  · apply List.nodup_cons.mpr ⟨_,(nodup_ofNat_range hrange).filter _⟩
    intro hzero
    have h := (mem_ofNat_range hrange).mp (List.mem_filter.mp hzero).1
    exact absurd h.1 (by decide)
  · exact List.nodup_singleton _
  · exact List.nodup_nil

private theorem mem_functionsOn {d : PciDevice} :
    d ∈ functionsOn c bus ↔ d.bus = bus ∧ d.device.toNat < 32 ∧ d.function ∈ functionsOf c bus d.device := by
  rw [functionsOn,List.range_eq_range',List.mem_flatMap]
  constructor
  · rintro ⟨device,hdevice,hd⟩
    obtain ⟨function,hfunction,rfl⟩ := List.mem_map.mp hd
    have h := (mem_ofNat_range (by decide)).mp hdevice
    exact ⟨rfl,by simpa using h.2,hfunction⟩
  · rintro ⟨rfl,hdevice,hfunction⟩
    exact ⟨d.device,(mem_ofNat_range (by decide)).mpr ⟨Nat.zero_le _,by omega⟩,
      List.mem_map.mpr ⟨d.function,hfunction,rfl⟩⟩

private theorem nodup_functionsOn (bus : BitVec 8) : (functionsOn c bus).Nodup := by
  rw [functionsOn,List.range_eq_range',List.nodup_flatMap]
  constructor
  · intro device _
    apply (nodup_functionsOf c bus device).map
    intro f f' hf
    exact congrArg PciDevice.function hf
  · apply (nodup_ofNat_range (by decide)).imp
    intro device device' hne d hd hd'
    obtain ⟨f,-,rfl⟩ := List.mem_map.mp hd
    obtain ⟨f',-,hf'⟩ := List.mem_map.mp hd'
    exact hne (congrArg PciDevice.device hf').symm

private theorem mem_endpoints {buses : List (BitVec 8)} {d : PciDevice} :
    d ∈ (topology c).leavesAt buses ↔ Endpoint c buses d := by
  rw [Graph.mem_leavesAt,Endpoint]
  constructor
  · rintro ⟨bus,hbus,hd,hbelow⟩
    obtain ⟨rfl,hdevice,hfunction⟩ := (mem_functionsOn c).mp hd
    obtain ⟨h8,hp,hcounts⟩ := (mem_functionsOf c).mp hfunction
    exact ⟨hbus,hdevice,h8,hp,hcounts,hbelow⟩
  · rintro ⟨hbus,hdevice,h8,hp,hcounts,hbelow⟩
    exact ⟨d.bus,hbus,(mem_functionsOn c).mpr ⟨rfl,hdevice,(mem_functionsOf c).mpr ⟨h8,hp,hcounts⟩⟩,hbelow⟩

private theorem nodup_endpoints {buses : List (BitVec 8)} (hb : buses.Nodup) :
    ((topology c).leavesAt buses).Nodup := by
  rw [Graph.leavesAt,List.nodup_flatMap]
  constructor
  · intro bus _
    exact (nodup_functionsOn c bus).filter _
  · apply hb.imp
    intro bus bus' hne d hd hd'
    have h := (mem_functionsOn c).mp (List.mem_filter.mp hd).1
    have h' := (mem_functionsOn c).mp (List.mem_filter.mp hd').1
    exact hne (h.1.symm.trans h'.1)

/-- The buses that a scan walks through. -/
def scannedBuses : List (BitVec 8) :=
  if MultiFunction c 0 0 then scanned c ((List.range 8).map (BitVec.ofNat 8)) else [0]

theorem scan_eq (fuel : Nat) :
    scan c fuel = (scannedBuses c).foldlM (fun devices bus => (topology c).walk fuel bus devices) [] := by
  have hheader := header_bit c 0 0 (show (0 : BitVec 8).toNat < 2^5 by decide)
  rw [scan,scannedBuses]
  by_cases hm : MultiFunction c 0 0
  · rw [if_neg (hheader.mpr hm),if_pos hm]
    apply scanFunctions_eq
    intro f hf
    apply ofNat_range_lt _ hf
    decide
  · rw [if_pos (not_not.mp (mt hheader.mp hm)),if_neg hm,scanBus_eq,List.foldlM_cons]
    exact (bind_pure _).symm

private theorem forest_of_scan {fuel : Nat} {devices : List PciDevice} (h : scan c fuel = some devices) :
    ∃ walked, (topology c).Forest (scannedBuses c) walked := by
  rw [scan_eq] at h
  exact Graph.forest_of_foldlM_walk h

/-- A scan through a finite tree ends, in the endpoints of the tree. -/
private theorem scan_of_forest {walked : List (BitVec 8)} (h : (topology c).Forest (scannedBuses c) walked) :
    ∃ devices, devices.Perm ((topology c).leavesAt walked) ∧
      ∃ enough, ∀ fuel ≥ enough, scan c fuel = some devices := by
  obtain ⟨devices,hdevices,enough,hwalk⟩ := h.foldlM_walk
  refine ⟨devices,hdevices,enough,?_⟩
  intro fuel hfuel
  rw [scan_eq,hwalk fuel hfuel,List.nil_append]

/-- A scan is exact when the buses it walks through have the same endpoints as `buses`, and only then. -/
theorem exact_iff_scanned {buses : List (BitVec 8)} (hb : buses.Nodup) :
    Exact c buses ↔ ∃ walked, (topology c).Forest (scannedBuses c) walked ∧
      ((topology c).leavesAt walked).Perm ((topology c).leavesAt buses) := by
  constructor
  · rintro ⟨devices,hnodup,hmem,enough,hscan⟩
    obtain ⟨walked,hwalked⟩ := forest_of_scan c (hscan enough le_rfl)
    obtain ⟨ds,hds,enough',hscan'⟩ := scan_of_forest c hwalked
    have hsame : some devices = some ds := by
      rw [← hscan (max enough enough') (le_max_left _ _),hscan' _ (le_max_right _ _)]
    obtain rfl := Option.some.inj hsame
    refine ⟨walked,hwalked,hds.symm.trans ?_⟩
    apply (List.perm_ext_iff_of_nodup hnodup (nodup_endpoints c hb)).mpr
    intro d
    rw [hmem,mem_endpoints]
  · rintro ⟨walked,hwalked,hperm⟩
    obtain ⟨ds,hds,hends⟩ := scan_of_forest c hwalked
    have hperm' := hds.trans hperm
    refine ⟨ds,hperm'.nodup_iff.mpr (nodup_endpoints c hb),?_,hends⟩
    intro d
    rw [hperm'.mem_iff,mem_endpoints]

/-- A bus that an endpoint is on. -/
def Populated (bus : BitVec 8) : Prop := ∃ d, Endpoint c [bus] d

/-- An endpoint is listed once for each way to its bus. -/
private theorem count_endpoints (nodes : List (BitVec 8)) (d : PciDevice) :
    ((topology c).leavesAt nodes).count d = if Endpoint c [d.bus] d then nodes.count d.bus else 0 := by
  have hleaves (bus : BitVec 8) : ((topology c).leaves ((topology c).items bus)).count d =
      if Endpoint c [d.bus] d ∧ bus = d.bus then 1 else 0 := by
    have hsingle : (topology c).leavesAt [bus] = (topology c).leaves ((topology c).items bus) := by
      rw [Graph.leavesAt,List.flatMap_cons,List.flatMap_nil,List.append_nil]
    have hmem : d ∈ (topology c).leavesAt [bus] ↔ Endpoint c [d.bus] d ∧ bus = d.bus := by
      rw [mem_endpoints]
      constructor
      · rintro ⟨hbus,hrest⟩
        exact ⟨⟨List.mem_singleton_self _,hrest⟩,(List.mem_singleton.mp hbus).symm⟩
      · rintro ⟨hd,rfl⟩
        exact hd
    rw [← hsingle,(nodup_endpoints c (List.nodup_singleton bus)).count]
    simp only [hmem]
  induction nodes with
  | nil => simp [Graph.leavesAt]
  | cons bus nodes ih =>
    rw [Graph.leavesAt_cons,List.count_append,ih,hleaves,List.count_cons]
    by_cases hd : Endpoint c [d.bus] d <;> by_cases hbus : bus = d.bus <;> simp [hd, hbus, Nat.add_comm]

/-- Two walks list the same endpoints if they come as often to each bus that has one, and only then. -/
private theorem endpoints_perm_iff {walked buses : List (BitVec 8)} :
    ((topology c).leavesAt walked).Perm ((topology c).leavesAt buses) ↔
      ∀ bus, Populated c bus → walked.count bus = buses.count bus := by
  rw [List.perm_iff_count]
  simp only [count_endpoints]
  constructor
  · rintro h bus ⟨d,hd⟩
    obtain rfl : d.bus = bus := List.mem_singleton.mp hd.1
    have hcount := h d
    rw [if_pos hd,if_pos hd] at hcount
    exact hcount
  · intro h d
    by_cases hd : Endpoint c [d.bus] d
    · rw [if_pos hd,if_pos hd,h d.bus ⟨d,hd⟩]
    · rw [if_neg hd,if_neg hd]

/-- The functions of the host controller before the first one that is present. -/
def absentFunctions : List (BitVec 8) := scanned c ((List.range 8).map (BitVec.ofNat 8))

/-- On a finite tree of buses a scan is exact if the host controller has one function. With several of
them the scan breaks off at the first one that is present: if that is function 0 nothing is listed, else
the scan goes through the buses of the absent functions before it, and has to come once to each bus of the tree that
has an endpoint and to no other bus that has one. -/
theorem scan_exact_iff {buses : List (BitVec 8)} (htree : (topology c).Forest (rootBuses c) buses)
    (hnodup : buses.Nodup) :
    Exact c buses ↔ ¬ MultiFunction c 0 0 ∨
      (Present c 0 0 0 ∧ ∀ bus ∈ buses, ¬ Populated c bus) ∨
      (¬ Present c 0 0 0 ∧ ∃ walked, (topology c).Forest (absentFunctions c) walked ∧
        ∀ bus, Populated c bus → walked.count bus = buses.count bus) := by
  rw [exact_iff_scanned c hnodup,scannedBuses]
  simp only [endpoints_perm_iff]
  by_cases hm : MultiFunction c 0 0
  · rw [if_pos hm]
    by_cases hp : Present c 0 0 0
    · have hnone : scanned c ((List.range 8).map (BitVec.ofNat 8)) = [] :=
        List.takeWhile_cons_of_neg (by simpa using hp)
      rw [hnone]
      constructor
      · rintro ⟨walked,hwalked,hcount⟩
        refine .inr (.inl ⟨hp,fun bus hbus hpopulated => ?_⟩)
        cases hwalked
        have hzero := hcount bus hpopulated
        rw [List.count_nil] at hzero
        exact List.count_eq_zero.mp hzero.symm hbus
      · rintro (h | ⟨-,hempty⟩ | ⟨h,-⟩)
        · exact absurd hm h
        · refine ⟨[],.nil,?_⟩
          intro bus hpopulated
          rw [List.count_nil,List.count_eq_zero_of_not_mem fun hbus => hempty bus hbus hpopulated]
        · exact absurd hp h
    · constructor
      · intro h
        exact .inr (.inr ⟨hp,h⟩)
      · rintro (h | ⟨h,-⟩ | ⟨-,h⟩)
        · exact absurd hm h
        · exact absurd h hp
        · exact h
  · rw [if_neg hm]
    rw [rootBuses,if_neg hm] at htree
    constructor
    · intro _
      exact .inl hm
    · intro _
      exact ⟨buses,htree,fun _ _ => rfl⟩

/-- A host bridge, a PCI-to-PCI bridge to bus 1 and there a device with functions 0 and 3. -/
def bridgedCard : ConfigSpace := fun bus device function offset =>
  if bus = 0 ∧ device = 0 ∧ function = 0 then
    if offset = 0x0b then 0x06 else 0
  else if bus = 0 ∧ device = 1 ∧ function = 0 then
    if offset = 0x0b then 0x06 else if offset = 0x0a then 0x04 else if offset = 0x0e then 0x01
    else if offset = 0x19 then 1 else 0
  else if bus = 1 ∧ device = 0 ∧ (function = 0 ∨ function = 3) then
    if offset = 0x0b then 0x02 else if offset = 0x0e then 0x80 else 0
  else 0xff

private theorem bridgedCard_forest : (topology bridgedCard).Forest (rootBuses bridgedCard) [0,1] := by
  have hroot : rootBuses bridgedCard = [0] := by decide +kernel
  have hfirst : (functionsOn bridgedCard 0).filterMap (below bridgedCard) = [1] := by decide +kernel
  have hsecond : (functionsOn bridgedCard 1).filterMap (below bridgedCard) = [] := by decide +kernel
  have hleaf : (topology bridgedCard).Forest ((functionsOn bridgedCard 1).filterMap (below bridgedCard)) [] := by
    rw [hsecond]
    exact .nil
  have hbelow : (topology bridgedCard).Forest ((functionsOn bridgedCard 0).filterMap (below bridgedCard)) [1] := by
    rw [hfirst]
    exact Graph.Forest.cons (g := topology bridgedCard) (b := 1) hleaf .nil
  rw [hroot]
  exact Graph.Forest.cons (g := topology bridgedCard) (b := 0) hbelow .nil

/-- The functions behind the bridge are listed, and the bridge is not. -/
theorem scan_exact_iff_sample : ∃ devices enough, (∀ fuel ≥ enough, scan bridgedCard fuel = some devices) ∧
    ⟨0,0,0⟩ ∈ devices ∧ ⟨1,0,0⟩ ∈ devices ∧ ⟨1,0,3⟩ ∈ devices ∧ ⟨0,1,0⟩ ∉ devices := by
  obtain ⟨devices,-,hmem,enough,hscan⟩ :=
    (scan_exact_iff _ bridgedCard_forest (by decide)).mpr (.inl (by decide +kernel))
  refine ⟨devices,enough,hscan,?_⟩
  simp only [hmem, Endpoint]
  decide +kernel

/-- One function at 0:0:0, a host bridge with the given header type. -/
def loneHost (headerType : BitVec 8) : ConfigSpace := fun bus device function offset =>
  if bus = 0 ∧ device = 0 ∧ function = 0 then
    if offset = 0x0e then headerType else if offset = 0x0b then 0x06 else 0
  else 0xff

private theorem loneHost_forest {headerType : BitVec 8} (hroot : rootBuses (loneHost headerType) = [0])
    (hitems : (functionsOn (loneHost headerType) 0).filterMap (below (loneHost headerType)) = []) :
    (topology (loneHost headerType)).Forest (rootBuses (loneHost headerType)) [0] := by
  have hbelow : (topology (loneHost headerType)).Forest
      ((functionsOn (loneHost headerType) 0).filterMap (below (loneHost headerType))) [] := by
    rw [hitems]
    exact .nil
  rw [hroot]
  exact .cons hbelow .nil

/-- A present host controller with the multi-function bit: nothing is listed, not even itself. -/
theorem scan_exact_fails :
    ¬ ∀ (c : ConfigSpace) (buses : List (BitVec 8)), (topology c).Forest (rootBuses c) buses →
      buses.Nodup → Exact c buses := by
  intro h
  have hexact := h (loneHost 0x80) [0] (loneHost_forest (by decide +kernel) (by decide +kernel))
    (List.nodup_singleton _)
  obtain ⟨walked,hwalked,hperm⟩ := (exact_iff_scanned _ (List.nodup_singleton _)).mp hexact
  rw [show scannedBuses (loneHost 0x80) = [] by decide +kernel] at hwalked
  cases hwalked
  exact absurd hperm.length_eq (by decide +kernel)

/-- A bridge on the first bus has the second one as its secondary bus. -/
def BridgeTo : BitVec 8 → BitVec 8 → Prop := (topology c).LeadsTo

private theorem finite_buses : Finite (BitVec 8) :=
  Finite.of_injective BitVec.toFin fun _ _ h => BitVec.eq_of_toFin_eq h

private theorem scan_ends_iff_forest :
    (∃ devices enough, ∀ fuel ≥ enough, scan c fuel = some devices) ↔
      ∃ walked, (topology c).Forest (scannedBuses c) walked := by
  constructor
  · intro hends
    obtain ⟨devices,enough,hscan⟩ := hends
    exact forest_of_scan c (hscan enough le_rfl)
  · intro hforest
    obtain ⟨walked,hwalked⟩ := hforest
    obtain ⟨devices,-,hends⟩ := scan_of_forest c hwalked
    exact ⟨devices,hends⟩

open Relation in
/-- A scan ends exactly when no bus that it reaches lies on a cycle of bridges. -/
theorem scan_ends_iff :
    (∃ devices enough, ∀ fuel ≥ enough, scan c fuel = some devices) ↔
      ∀ root ∈ scannedBuses c, ∀ bus, ReflTransGen (BridgeTo c) root bus → ¬ TransGen (BridgeTo c) bus bus := by
  have hfinite := finite_buses
  rw [scan_ends_iff_forest]
  exact Graph.exists_forest_iff

/-- A host bridge, and a PCI-to-PCI bridge next to it whose bus numbers are not set. -/
def unconfiguredBridge : ConfigSpace := fun bus device function offset =>
  if bus = 0 ∧ device = 0 ∧ function = 0 then
    if offset = 0x0b then 0x06 else 0
  else if bus = 0 ∧ device = 1 ∧ function = 0 then
    if offset = 0x0b then 0x06 else if offset = 0x0a then 0x04 else if offset = 0x0e then 0x01 else 0
  else 0xff

/-- Its secondary bus is bus 0 again, and no depth of the recursion is enough. -/
theorem scan_never_ends :
    ¬ ∃ devices enough, ∀ fuel ≥ enough, scan unconfiguredBridge fuel = some devices := by
  rw [scan_ends_iff_forest]
  have hfinite := finite_buses
  intro hforest
  have hroot : (0 : BitVec 8) ∈ scannedBuses unconfiguredBridge := by decide +kernel
  have hcycle : (topology unconfiguredBridge).LeadsTo 0 0 := ⟨⟨0,1,0⟩,by decide +kernel,by decide +kernel⟩
  exact Graph.exists_forest_iff.mp hforest 0 hroot 0 .refl (.single hcycle)

end Pci

end HeineOS
