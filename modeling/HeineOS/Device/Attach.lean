import HeineOS.Device.ConfigAccess
import HeineOS.Device.Rtl8139
import HeineOS.Interrupt.Dispatcher

/-! How the driver finds its card on the PCI bus and starts it, up to the state that it works in. -/
namespace HeineOS.Rtl8139.Attach
open Lib Pci

def REG_RBSTART : BitVec 16 := 0x30
def REG_CMD : BitVec 16 := 0x37
def REG_IMR : BitVec 16 := 0x3c
def REG_RCR : BitVec 16 := 0x44
def REG_CONFIG_1 : BitVec 16 := 0x52

def TX_ENABLE : BitVec 8 := 1 <<< 2
def RX_ENABLE : BitVec 8 := 1 <<< 3
def RESET : BitVec 8 := 1 <<< 4

def RECEIVE_OK : BitVec 16 := 1 <<< 0
def TRANSMIT_OK : BitVec 16 := 1 <<< 2
def RX_OVERFLOW : BitVec 16 := 1 <<< 4

def ACCEPT_ALL_PACKETS : BitVec 32 := 1 <<< 0
def ACCEPT_PHYSICAL_MATCH : BitVec 32 := 1 <<< 1
def ACCEPT_MULTICAST : BitVec 32 := 1 <<< 2
def ACCEPT_BROADCAST : BitVec 32 := 1 <<< 3
def WRAP : BitVec 32 := 1 <<< 7

def IO_ENABLE : BitVec 16 := 0x0001
def BUS_MASTER_ENABLE : BitVec 16 := 0x0004

section
variable (c : ConfigSpace) (d : PciDevice)

def readVendorId : BitVec 16 := read16 c d.bus d.device d.function 0x00

def readDeviceId : BitVec 16 := read16 c d.bus d.device d.function 0x02

def readCommand : BitVec 16 := read16 c d.bus d.device d.function 0x04

def writeCommand (value : BitVec 16) : ConfigSpace := write16 c d.bus d.device d.function 0x04 value

def readBar0 : BitVec 32 := read32 c d.bus d.device d.function 0x10

def readInterruptLine : BitVec 8 := read8 c d.bus d.device d.function 0x3c

def isRtl8139 : Bool := readVendorId c d = 0x10ec ∧ readDeviceId c d = 0x8139

end

/-- The registers of the card that the driver sets up. `resetLeft` is how often the card will still be found in a
reset. -/
structure Registers where
  config1 : BitVec 8
  resetLeft : Nat
  rxEnable : Bool
  txEnable : Bool
  rbstart : BitVec 32
  imr : BitVec 16
  isr : BitVec 16
  rcr : BitVec 32
  tsd : Nat → BitVec 32

namespace Registers
variable (r : Registers)

/-- A reset turns the card off, and gives all transmit descriptors to the driver. -/
def reset (resetTime : Nat) : Registers where
  config1 := r.config1
  resetLeft := resetTime
  rxEnable := false
  txEnable := false
  rbstart := r.rbstart
  imr := 0
  isr := 0
  rcr := 0
  tsd := fun _ => 1#32 <<< 13

/-- What is written during a reset is lost. -/
def outb (resetTime : Nat) (register : BitVec 16) (v : BitVec 8) : Registers :=
  if r.resetLeft ≠ 0 then r
  else if register = REG_CMD then
    if v.getLsbD 4 then r.reset resetTime else { r with rxEnable := v.getLsbD 3, txEnable := v.getLsbD 2 }
  else if register = REG_CONFIG_1 then { r with config1 := v }
  else r

def outw (register : BitVec 16) (v : BitVec 16) : Registers :=
  if r.resetLeft ≠ 0 then r else if register = REG_IMR then { r with imr := v } else r

def outdw (register : BitVec 16) (v : BitVec 32) : Registers :=
  if r.resetLeft ≠ 0 then r
  else if register = REG_RBSTART then { r with rbstart := v }
  else if register = REG_RCR then { r with rcr := v }
  else r

/-- The command register; the other bits depend on what the card receives. -/
def inb (register : BitVec 16) (other : BitVec 8) : BitVec 8 × Registers :=
  if register = REG_CMD then
    (if r.resetLeft ≠ 0 then other ||| RESET else other &&& ~~~RESET,{ r with resetLeft := r.resetLeft - 1 })
  else (other,r)

end Registers

/-- The configuration space and the card. -/
structure Machine where
  config : ConfigSpace
  registers : Registers

section
variable (card : PciDevice) (resetTime : Nat) (other : BitVec 8)

/-- The base of the ports of the card. -/
def ioBase (c : ConfigSpace) : BitVec 16 := (readBar0 c card &&& 0xfffc).setWidth 16

/-- The register behind a port, as long as the card takes part in accesses to ports. -/
def decode (c : ConfigSpace) (port : BitVec 16) : Option (BitVec 16) :=
  if (readCommand c card).getLsbD 0 ∧ (port - ioBase card c).toNat < 256 then some (port - ioBase card c) else none

/-- The sum of a base and the number of a register panics if it overflows. -/
def portOf (base register : BitVec 16) : Option (BitVec 16) :=
  if base.toNat + register.toNat < 2^16 then some (base + register) else none

namespace Machine
variable (m : Machine)

def access (port : BitVec 16) (f : BitVec 16 → Registers → Registers) : Machine :=
  match decode card m.config port with
  | some register => { m with registers := f register m.registers }
  | none => m

def outb (base register : BitVec 16) (v : BitVec 8) : Option Machine :=
  (portOf base register).map fun port => m.access card port fun register r => r.outb resetTime register v

def outw (base register : BitVec 16) (v : BitVec 16) : Option Machine :=
  (portOf base register).map fun port => m.access card port fun register r => r.outw register v

def outdw (base register : BitVec 16) (v : BitVec 32) : Option Machine :=
  (portOf base register).map fun port => m.access card port fun register r => r.outdw register v

/-- Ports that nobody answers for read as 0xff. -/
def inb (base register : BitVec 16) : Option (BitVec 8 × Machine) :=
  (portOf base register).map fun port =>
    match decode card m.config port with
    | some register =>
      let (v,registers) := m.registers.inb register other
      (v,{ m with registers })
    | none => (0xff,m)

end Machine

def powerOn (base : BitVec 16) (m : Machine) : Option Machine := m.outb card resetTime base REG_CONFIG_1 0x00

/-- The loop that waits for the end of the reset. There is no result if it takes longer than the fuel lasts. -/
def awaitReset : Nat → BitVec 16 → Machine → Option Machine
  | 0,_,_ => none
  | fuel + 1,base,m => do
    let (v,m) ← m.inb card other base REG_CMD
    if v &&& RESET ≠ 0 then awaitReset fuel base m else some m

def softwareReset (fuel : Nat) (base : BitVec 16) (m : Machine) : Option Machine := do
  let m ← m.outb card resetTime base REG_CMD RESET
  awaitReset card other fuel base m

def initRxBuffer (base : BitVec 16) (rxBuffer : Nat) (m : Machine) : Option Machine :=
  m.outdw card base REG_RBSTART (BitVec.ofNat 32 rxBuffer)

def allowInterrupts (base : BitVec 16) (m : Machine) : Option Machine :=
  m.outw card base REG_IMR (RECEIVE_OK ||| TRANSMIT_OK ||| RX_OVERFLOW)

def configureReceiveBuffer (base : BitVec 16) (m : Machine) : Option Machine :=
  m.outdw card base REG_RCR
    (ACCEPT_ALL_PACKETS ||| ACCEPT_PHYSICAL_MATCH ||| ACCEPT_MULTICAST ||| ACCEPT_BROADCAST ||| WRAP)

def enableRxTx (base : BitVec 16) (m : Machine) : Option Machine :=
  m.outb card resetTime base REG_CMD (RX_ENABLE ||| TX_ENABLE)

/-- `rxBuffer` is the address of the receive buffer of the new driver. -/
def initRtl8139 (fuel : Nat) (base : BitVec 16) (rxBuffer : Nat) (m : Machine) : Option Machine := do
  let m ← powerOn card resetTime base m
  let m ← softwareReset card resetTime other fuel base m
  let m ← initRxBuffer card base rxBuffer m
  let m ← allowInterrupts card base m
  let m ← configureReceiveBuffer card base m
  enableRxTx card resetTime base m

/-- The line of the card is allowed, and the handler registered for its vector. -/
def plugIn {α : Type} (irq : Pic.Irq) (vector : Nat) (isr : α) (k : Dispatcher.State α) : Dispatcher.State α :=
  let k := { k with pics := Pic.allow k.pics irq }
  match k.map.registerDynamic vector isr with
  | none => { k with panicked := true }
  | some map => { k with map, plugged := Function.update k.plugged irq (some isr) }

/-- How `plugin` ends: there is no card, it panics, or the card is attached. -/
inductive Outcome where
  | absent
  | panic (text : String)
  | attached (base : BitVec 16) (irq : Pic.Irq) (vector : Nat)
  deriving DecidableEq, Repr

/-- `isr` is the new handler, and `k` the interrupt controllers and the handlers of the kernel. -/
def plugin {α : Type} (fuel : Nat) (devices : List PciDevice) (rxBuffer : Nat) (isr : α) (m : Machine)
    (k : Dispatcher.State α) : Option (Outcome × Machine × Dispatcher.State α) :=
  match devices.find? (isRtl8139 m.config) with
  | none => some (.absent,m,k)
  | some rtl8139 => do
    let command := readCommand m.config rtl8139 ||| IO_ENABLE ||| BUS_MASTER_ENABLE
    let m := { m with config := writeCommand m.config rtl8139 command }
    let bar0 := readBar0 m.config rtl8139
    if bar0 &&& 0x1 = 0 then some (.panic "RTL8139 MMIO is not supported",m,k)
    else
      let base := (bar0 &&& 0xfffc).setWidth 16
      let m ← initRtl8139 card resetTime other fuel base rxBuffer m
      let irqNum := readInterruptLine m.config rtl8139
      match Dispatcher.rtl8139Irq irqNum.toNat with
      | none => some (.panic ("Unsupported PCI IRQ: " ++ toString irqNum.toNat),m,k)
      | some (irq,vector) => some (.attached base irq vector,m,plugIn irq vector isr k)

end

section
variable {c : ConfigSpace} {d : PciDevice} {value : BitVec 16}

end

section
variable {card : PciDevice} {resetTime : Nat} {other : BitVec 8} {m : Machine}

/-- How the driver leaves the registers. -/
def started (rxBuffer : Nat) : Registers :=
  ⟨0,0,true,true,BitVec.ofNat 32 rxBuffer,0x15,0,0x8f,fun _ => 1#32 <<< 13⟩

/-- The bits of the interrupt status that the handler looks at. -/
def flags (isr : BitVec 16) : InterruptReg := ⟨isr.getLsbD 0,isr.getLsbD 2,isr.getLsbD 4⟩

/-- The card is on, writes packets to the buffer without wrapping them at its end, a ring of 8 KiB, interrupts for the
three events, and has the state that the driver starts from. -/
structure Working (rxBuffer : Nat) (r : Registers) : Prop where
  on : r.resetLeft = 0 ∧ r.rxEnable = true ∧ r.txEnable = true
  buffer : r.rbstart.toNat = rxBuffer
  accepts : r.rcr &&& 0xf = 0xf
  wrap : r.rcr.getLsbD 7 = true
  ring : r.rcr.extractLsb' 11 2 = 0
  interrupts : ∀ i, r.imr.getLsbD i = true ↔ i = 0 ∨ i = 2 ∨ i = 4
  state : ∀ memory, (start memory).shared.isr = flags r.isr ∧ (start memory).shared.tsd = r.tsd

section
variable {α : Type} {k : Dispatcher.State α} {irq : Pic.Irq} {vector : Nat} {isr : α}

/-- Whatever the kernel does after a state, the handler runs with every request on its line that the interrupt flag lets
through, unless another driver takes the line. -/
def Served (irq : Pic.Irq) (isr : α) (k : Dispatcher.State α) : Prop :=
  ∀ k' ls, ((Dispatcher.system α).restrict (Dispatcher.Settled irq)).Run k ls k' →
    k'.panicked = false ∧ (k'.ie = true → k'.step (.request irq) = some { k' with served := k'.served ++ [(irq,isr)] })

end

end

/-- The kernel before the drivers. -/
def fresh : Dispatcher.State String :=
  ⟨Pic.init ⟨⟨.ready,false,false,0,0,0,0⟩,⟨.ready,false,false,0,0,0,0⟩⟩,List.replicate Idt.idtSize none,false,none,
    fun _ => none,[],false⟩

end HeineOS.Rtl8139.Attach
