import HeineOS.Lib.Bytes
import HeineOS.Lib.Conc
import HeineOS.Device.PacketQueue

/-! The RTL8139 driver and its card: threads that send and receive packets, the interrupt handler, and what the
card does by itself at any time. -/
namespace HeineOS.Rtl8139
open Lib

/-- The interrupt handler, which no thread interrupts, and the threads. -/
inductive Ctx where
  | handler
  | thread (n : Nat)
  deriving DecidableEq

inductive Lock where
  | rx
  | tx
  deriving DecidableEq

/-- The bits of the interrupt status register that are allowed to interrupt. -/
structure InterruptReg where
  receiveOk : Bool
  transmitOk : Bool
  rxOverflow : Bool
  deriving DecidableEq

def InterruptReg.pending (r : InterruptReg) : Bool := r.receiveOk || r.transmitOk || r.rxOverflow

/-- Writing a status word back clears its bits. -/
def InterruptReg.clear (r status : InterruptReg) : InterruptReg where
  receiveOk := r.receiveOk && !status.receiveOk
  transmitOk := r.transmitOk && !status.transmitOk
  rxOverflow := r.rxOverflow && !status.rxOverflow

/-- A packet as the card writes it: the status word with ROK, the length of what follows, the payload and the
checksum. -/
structure Packet where
  status : Nat
  payload : List UInt8
  crc : List UInt8
  status_lt : status < 2^16
  rok : status % 2 = 1
  payload_le : payload.length ≤ 1514
  crc_length : crc.length = 4

namespace Packet
variable (p : Packet)

def length : Nat := p.payload.length + 4

def header : List UInt8 :=
  [UInt8.ofNat p.status,UInt8.ofNat (p.status / 256),UInt8.ofNat p.length,UInt8.ofNat (p.length / 256)]

def bytes : List UInt8 := p.header ++ p.payload ++ p.crc

end Packet

/-- Where the next packet goes, behind packets that were written from offset 0 on. -/
def position (ps : List Packet) : Nat := ps.foldl (fun w p => (w + 4 + p.length + 3) / 4 * 4 % 8192) 0

/-- The receive side of the card: the memory of its ring, the packets that are completely written, the one that is
being written with the bytes done so far, and how many were released by the read pointer. -/
structure RxRing where
  memory : Bytes
  packets : List Packet
  writing : Option (Packet × Nat)
  released : Nat
  readPointer : Nat

namespace RxRing
variable (ring : RxRing)

/-- The ring offset of the `k`-th packet. -/
def start (k : Nat) : Nat := position (ring.packets.take k)

/-- The byte belongs to a packet that is not released. -/
def keeps (a : Nat) : Bool :=
  (List.range ring.packets.length).any fun k =>
    ring.released ≤ k && (ring.start k ≤ a && a < ring.start k + ((ring.packets[k]?).map Packet.bytes).elim 0 List.length)

def bufferEmpty : Bool := ring.released == ring.packets.length

/-- The read pointer releases the packets in front of it. -/
def release (pointer : Nat) : RxRing :=
  let ahead := (List.range (ring.packets.length - ring.released)).takeWhile fun i =>
    ring.start (ring.released + i) != pointer
  { ring with released := ring.released + ahead.length, readPointer := pointer }

end RxRing

/-- The card takes the read pointer from CAPR with an offset of 16. -/
def decodeCapr (capr : BitVec 16) : Nat := (capr.toNat + 16) % 8192

def rxBufferSize : Nat := 8192 + 1500 + 16

structure RxState where
  rxQueue : PacketQueue
  rxReadOffset : Nat

structure TxState where
  currentTxDescriptor : Nat
  txBuffers : List (List UInt8)
  txQueue : PacketQueue

/-- What has happened: the frames that were accepted and those handed to the card with their descriptors, the
threads that are on their way to look at the descriptor, the packets taken from the ring, and how many were
delivered. -/
structure History where
  accepted : List (List UInt8)
  handed : List (Nat × List UInt8)
  looking : Ctx → Bool
  taken : List (List UInt8)
  delivered : Nat

/-- The driver and the card. A set OWN bit in `tsd` says that the driver owns the descriptor, and `tsad` names one
of its buffers. -/
structure Shared where
  isr : InterruptReg
  handling : Bool
  rxLocked : Bool
  rx : RxState
  ring : RxRing
  txLocked : Bool
  tx : TxState
  tsd : Nat → BitVec 32
  tsad : Nat → Option Nat
  history : History

namespace Shared
variable (s : Shared)

def locked : Lock → Bool
  | .rx => s.rxLocked
  | .tx => s.txLocked

def setLock (l : Lock) (b : Bool) : Shared :=
  match l with
  | .rx => { s with rxLocked := b }
  | .tx => { s with txLocked := b }

def look (c : Ctx) (b : Bool) : Shared :=
  { s with history := { s.history with looking := Function.update s.history.looking c b } }

/-- The OWN bit: the driver may use the descriptor. -/
def driverOwns (desc : Nat) : Bool := (s.tsd desc).getLsbD 13

/-- The bytes that the card reads for a descriptor. -/
def outgoing (desc length : Nat) : List UInt8 :=
  match s.tsad desc with
  | none => []
  | some i => (s.tx.txBuffers[i]?.getD []).take length

end Shared

/-- What a thread does next. -/
inductive Act where
  | transmit (data : List UInt8)
  | receivePacket
  deriving DecidableEq

inductive Op where
  | act
  | awaitInterrupt
  | iret
  | readInterruptStatus
  | acknowledgeInterrupt (status : InterruptReg)
  | lock (l : Lock)
  | tryLock (l : Lock)
  | unlock (l : Lock)
  | txPush (data : List UInt8)
  | txSize
  | txDescriptorFree
  | txPop
  | currentTxDescriptor
  | copyFrame (desc : Nat) (frame : EthernetFrame)
  | writeTsad (desc : Nat)
  | writeTsd (desc length : Nat)
  | nextTxDescriptor
  | rxBufferEmpty
  | rxReadOffset
  | readHeader (offset : Nat)
  | rxPush (dataStart dataEnd : Nat)
  | setRxReadOffset (offset : Nat)
  | writeCapr (capr : BitVec 16)
  | rxPop
  | panic

/-- Where an index or a slice may be out of range, the result is `false` or `none` then. -/
@[reducible] def Op.Result : Op → Type
  | .act => Act
  | .readInterruptStatus => InterruptReg
  | .tryLock _ | .txDescriptorFree | .rxBufferEmpty | .txPush _ | .copyFrame .. | .rxPush .. => Bool
  | .txSize | .currentTxDescriptor | .rxReadOffset => Nat
  | .txPop | .rxPop => Option (Option EthernetFrame)
  | .readHeader _ => Option (BitVec 32)
  | .panic => Empty
  | _ => Unit

inductive Proc where
  | flushLoop
  | rxLoop
  | handler
  | thread
  deriving DecidableEq

abbrev Code := Program Op.Result Proc

def perform (i : Op) : Code i.Result := Program.perform i
def call (p : Proc) : Code Unit := .call p (.pure ())
def panic : Code Unit := .op .panic Empty.elim

/-- Go on if everything was in range. -/
def check (inRange : Bool) : Code Unit := if inRange then pure () else panic

def flushTxQueue : Code Unit := do
  if ← perform (.tryLock .tx) then
    call .flushLoop
    perform (.unlock .tx)

def transmit (data : List UInt8) : Code Unit := do
  perform (.lock .tx)
  if data.length > 1792 then
    perform (.unlock .tx)
  else
    check (← perform (.txPush data))
    perform (.unlock .tx)
    flushTxQueue

/-- One round of the loop of `flush_tx_queue`. -/
def flushRound : Code Unit := do
  if (← perform .txSize) > 0 then
    if ← perform .txDescriptorFree then
      match ← perform .txPop with
      | none => panic
      | some none => pure ()
      | some (some frame) => do
        let desc ← perform .currentTxDescriptor
        check (← perform (.copyFrame desc frame))
        perform (.writeTsad desc)
        perform (.writeTsd desc frame.length)
        perform .nextTxDescriptor
        call .flushLoop

def processRxBuffer : Code Unit := do
  if ← perform (.tryLock .rx) then
    call .rxLoop
    perform (.unlock .rx)

/-- The offset behind a packet of this length. -/
def nextOffset (offset length : Nat) : Nat := (offset + 4 + length + 3) / 4 * 4 % 8192

/-- One round of the loop of `process_rx_buffer`. -/
def rxRound : Code Unit := do
  if ← perform .rxBufferEmpty then pure ()
  else
    let offset ← perform .rxReadOffset
    match ← perform (.readHeader offset) with
    | none => panic
    | some header => do
      let length := (header >>> 16).toNat
      if header.getLsbD 0 then
        let packetLen := length - 4
        let dataStart := offset + 4
        let dataEnd := dataStart + packetLen
        if dataEnd ≤ rxBufferSize then
          check (← perform (.rxPush dataStart dataEnd))
      perform (.setRxReadOffset (nextOffset offset length))
      perform (.writeCapr (BitVec.ofNat 16 (nextOffset offset length) - 16))
      call .rxLoop

def receivePacket : Code Unit := do
  perform (.lock .rx)
  match ← perform .rxPop with
  | none => panic
  | some _ => perform (.unlock .rx)

def trigger : Code Unit := do
  let status ← perform .readInterruptStatus
  if status.receiveOk || status.rxOverflow then
    processRxBuffer
  if status.transmitOk then
    flushTxQueue
  perform (.acknowledgeInterrupt status)

def Proc.body : Proc → Code Unit
  | .flushLoop => flushRound
  | .rxLoop => rxRound
  | .handler => do
    perform .awaitInterrupt
    trigger
    perform .iret
    call .handler
  | .thread => do
    match ← perform .act with
    | .transmit data => transmit data
    | .receivePacket => receivePacket
    call .thread

namespace Shared
variable (s : Shared)

/-- The slice of the receive buffer, if it is in range. -/
def rxSlice (dataStart dataEnd : Nat) : Option (List UInt8) :=
  if dataStart ≤ dataEnd ∧ dataEnd ≤ rxBufferSize then
    some ((List.range (dataEnd - dataStart)).map fun i => s.ring.memory (dataStart + i))
  else none

/-- An accepted frame has at most 1792 bytes and comes while fewer than 64 are queued. -/
def accepts (data : List UInt8) : Bool := data.length ≤ 1792 && s.tx.txQueue.size < queueCapacity

/-- The effect of an operation. A taken lock blocks, and so does everything of a thread while the handler runs. -/
def run (c : Ctx) (choice : Act) : (i : Op) → Option (i.Result × Shared)
  | .act =>
    match choice with
    | .transmit data => some (.transmit data,s.look c (data.length ≤ 1792))
    | .receivePacket => some (.receivePacket,s)
  | .awaitInterrupt => if s.isr.pending && !s.handling then some ((),{ s with handling := true }) else none
  | .iret => some ((),{ s with handling := false })
  | .readInterruptStatus => some (s.isr,s)
  | .acknowledgeInterrupt status => some ((),{ s with isr := s.isr.clear status })
  | .lock l => if s.locked l then none else some ((),s.setLock l true)
  | .tryLock .rx => some (!s.rxLocked,s.setLock .rx true)
  | .tryLock .tx =>
    if s.txLocked then some (false,s.look c false) else some (true,s.setLock .tx true)
  | .unlock l => some ((),s.setLock l false)
  | .txPush data =>
    match s.tx.txQueue.push data with
    | none => some (false,s)
    | some txQueue => some (true,{ s with
        tx := { s.tx with txQueue }
        history := { s.history with
          accepted := if s.accepts data then s.history.accepted ++ [data] else s.history.accepted } })
  | .txSize => some (s.tx.txQueue.size,if s.tx.txQueue.size = 0 then s.look c false else s)
  | .txDescriptorFree =>
    some (s.driverOwns s.tx.currentTxDescriptor,
      if s.driverOwns s.tx.currentTxDescriptor then s else s.look c false)
  | .txPop =>
    match s.tx.txQueue.pop with
    | none => some (none,s)
    | some (none,txQueue) => some (some none,Shared.look { s with tx := { s.tx with txQueue } } c false)
    | some (some frame,txQueue) => some (some (some frame),{ s with tx := { s.tx with txQueue } })
  | .currentTxDescriptor => some (s.tx.currentTxDescriptor,s)
  | .copyFrame desc frame =>
    match s.tx.txBuffers[desc]? with
    | none => some (false,s)
    | some buffer =>
      match copyFromSlice buffer frame.length frame.contents with
      | none => some (false,s)
      | some buffer => some (true,{ s with tx := { s.tx with txBuffers := s.tx.txBuffers.set desc buffer } })
  | .writeTsad desc => some ((),{ s with tsad := Function.update s.tsad desc (some desc) })
  | .writeTsd desc length => some ((),{ s with
      tsd := Function.update s.tsd desc (BitVec.ofNat 32 length)
      history := { s.history with handed := s.history.handed ++ [(desc,s.outgoing desc length)] } })
  | .nextTxDescriptor =>
    some ((),{ s with tx := { s.tx with currentTxDescriptor := (s.tx.currentTxDescriptor + 1) % 4 } })
  | .rxBufferEmpty => some (s.ring.bufferEmpty,s)
  | .rxReadOffset => some (s.rx.rxReadOffset,s)
  | .readHeader offset =>
    some (if offset + 3 < rxBufferSize then some (BitVec.ofNat 32 (s.ring.memory.load offset 4)) else none,s)
  | .rxPush dataStart dataEnd =>
    match s.rxSlice dataStart dataEnd with
    | none => some (false,s)
    | some packetData =>
      match s.rx.rxQueue.push packetData with
      | none => some (false,s)
      | some rxQueue => some (true,{ s with
          rx := { s.rx with rxQueue }
          history := { s.history with taken := s.history.taken ++ [packetData] } })
  | .setRxReadOffset offset => some ((),{ s with rx := { s.rx with rxReadOffset := offset } })
  | .writeCapr capr => some ((),{ s with ring := s.ring.release (decodeCapr capr) })
  | .rxPop =>
    match s.rx.rxQueue.pop with
    | none => some (none,s)
    | some (frame,rxQueue) => some (some frame,{ s with
        rx := { s.rx with rxQueue }
        history := { s.history with delivered := s.history.delivered + frame.elim 0 fun _ => 1 } })
  | .panic => none

def perform (c : Ctx) (choice : Act) (i : Op) : Option (i.Result × Shared) :=
  if s.handling && c != .handler then none else s.run c choice i

end Shared

/-- What the card does by itself: it sends a frame, it starts to write a packet, it writes a byte of it or is done
with it, or it gives a packet up. -/
inductive Event where
  | complete (desc : Nat)
  | receive (p : Packet)
  | write
  | overflow

/-- A byte is not written over a packet that was not released. -/
def Shared.event (s : Shared) : Event → Option Shared
  | .complete desc =>
    if desc < 4 ∧ s.driverOwns desc = false then
      some { s with
        tsd := Function.update s.tsd desc (s.tsd desc ||| 1#32 <<< 13)
        isr := { s.isr with transmitOk := true } }
    else none
  | .receive p =>
    match s.ring.writing with
    | none => some { s with ring := { s.ring with writing := some (p,0) } }
    | some _ => none
  | .write =>
    match s.ring.writing with
    | none => none
    | some (p,n) =>
      match p.bytes[n]? with
      | some b =>
        let a := position s.ring.packets + n
        if s.ring.keeps a then none
        else some { s with
          ring := { s.ring with memory := Function.update s.ring.memory a b, writing := some (p,n + 1) } }
      | none => some { s with
          ring := { s.ring with packets := s.ring.packets ++ [p], writing := none }
          isr := { s.isr with receiveOk := true } }
  | .overflow =>
    match s.ring.writing with
    | none => none
    | some _ => some { s with ring := { s.ring with writing := none }, isr := { s.isr with rxOverflow := true } }

def driver : Conc Ctx Act Event Shared Op.Result Proc where
  perform c choice s i := s.perform c choice i
  env e s := s.event e
  body := Proc.body

abbrev State := Conf Ctx Shared Op.Result Proc

/-- The card is set up and nothing has happened. -/
def start (memory : Bytes) : State where
  shared := {
    isr := ⟨false,false,false⟩
    handling := false
    rxLocked := false
    rx := ⟨.new,0⟩
    ring := ⟨memory,[],none,0,0⟩
    txLocked := false
    tx := ⟨0,List.replicate 4 (List.replicate 2048 0),.new⟩
    tsd := fun _ => 1#32 <<< 13
    tsad := fun _ => none
    history := ⟨[],[],fun _ => false,[],0⟩ }
  code
    | .handler => call .handler
    | .thread _ => call .thread

def system : System State (Move Ctx Act Event) := driver.system fun s => ∃ memory, s = start memory

theorem reachable_of_execAll {check : State → Move Ctx Act Event → Bool} {run : List (Move Ctx Act Event)} {s : State}
    (h : driver.execAll check (start fun _ => 0) run = some s) :
    (system.restrict fun s move => check s move = true).Reachable s :=
  ⟨_,run,⟨_,rfl⟩,Conc.run_of_execAll h⟩

/-- A context goes on for `n` moves. -/
def moves (c : Ctx) (choice : Act) (n : Nat) : List (Move Ctx Act Event) := List.replicate n (.run c choice)

/-- The card writes a whole packet. -/
def arrival (p : Packet) : List (Move Ctx Act Event) :=
  .env (.receive p) :: List.replicate (p.bytes.length + 1) (.env .write)

end HeineOS.Rtl8139
