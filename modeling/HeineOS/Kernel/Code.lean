import HeineOS.Lib.Program
import HeineOS.Thread.Scheduler

/-! The kernel code that runs under locks and interrupts, step by step: the spinlocks, the scheduler,
the thread switch, the interrupt dispatcher with its handlers, and threads that call them in any
order. -/
namespace HeineOS.Kernel
open Lib Scheduler

/-- The spinlocks. `other` are those that only threads take: the PIC, the PCI bus, the file system
and the speaker. -/
inductive Lock where
  | scheduler
  | intVectors
  | allocator
  | keyboard
  | com1
  | framebuffer
  | terminal
  | rxState
  | txState
  | other (n : Nat)
  deriving DecidableEq, Repr

/-- Locks whose guards a thread may keep while it does other things. The remaining ones are taken
and dropped inside one function. -/
def Lock.shared : Lock → Bool
  | .scheduler | .intVectors | .allocator | .keyboard => false
  | _ => true

/-- The vectors with a registered handler. -/
inductive Vector where
  | pit
  | keyboard
  | rtl8139
  deriving DecidableEq, Repr

/-- What `try_read_next_byte` comes to: no complete key, a key event, or a panic on a scancode outside
the tables or a missing acknowledge. -/
inductive Scan where
  | incomplete
  | event
  | fault
  deriving DecidableEq, Repr

/-- The status bit and length of a packet header in the receive buffer. -/
structure Packet where
  rok : Bool
  length : Nat
  deriving DecidableEq, Repr

/-- An interrupt with what its device has to deliver. -/
inductive Interrupt where
  | pit
  | keyboard (scan : Scan)
  | rtl8139 (rx tx : Bool) (packets : List Packet)
  deriving DecidableEq, Repr

def Interrupt.vector : Interrupt → Vector
  | .pit => .pit
  | .keyboard _ => .keyboard
  | .rtl8139 .. => .rtl8139

/-- `rx_read_offset` and the size of the receive queue. -/
structure Nic where
  rxReadOffset : Nat
  rxQueueSize : Nat
  deriving DecidableEq, Repr

def rxBufferSize : Nat := 8192 + 1500 + 16
def queueCapacity : Nat := 64

/-- `PacketQueue::push`: whether it warns, and the size behind it. -/
def push (size len : Nat) : Bool × Nat :=
  if size = queueCapacity then (true,size)
  else if len > 2048 then (true,size)
  else (false,size + 1)

/-- One round of `process_rx_buffer`: whether it warns, and the state behind it. -/
def Nic.receive (nic : Nic) (packet : Packet) : Bool × Nic :=
  let offset := nic.rxReadOffset
  let packetLen := packet.length - 4
  let dataEnd := offset + 4 + packetLen
  let (warns,size) :=
    if packet.rok then
      if dataEnd ≤ rxBufferSize then push nic.rxQueueSize packetLen else (true,nic.rxQueueSize)
    else (false,nic.rxQueueSize)
  (warns,⟨(offset + 4 + packet.length + 3) / 4 * 4 % 8192,size⟩)

/-- What a thread may do next. -/
inductive Act where
  | acquire (l : Lock)
  | tryAcquire (l : Lock)
  | release (l : Lock)
  | alloc
  | dumpFreeList (lines : List Nat)
  | ready (thread : Thread)
  | yieldCpu
  | exit
  | kill (id : Nat)
  | getActiveTid
  | cleanup
  | register (v : Vector)
  | keyboardBuffer
  | receivePacket
  | schedule
  deriving DecidableEq, Repr

/-- The steps. `unlock` is the drop of a guard, `act` and `flip` are open choices. -/
inductive Instr where
  | lock (l : Lock)
  | tryLock (l : Lock)
  | unlock (l : Lock)
  | forceUnlock (l : Lock)
  | isLocked (l : Lock)
  | isIntEnabled
  | setInt (enabled : Bool)
  | initialized
  | setInitialized
  | active
  | takeActive
  | setActive (thread : Thread)
  | enqueueReady (thread : Thread)
  | enqueueNew (thread : Thread)
  | dequeueReady
  | removeReady (id : Nat)
  | enqueueTerminated (thread : Thread)
  | dequeueTerminated
  | dropThread (thread : Thread)
  | setRsp0 (thread : Thread)
  | switchStack (next : Thread)
  | lookupIsr (v : Vector)
  | replaceIsr (v : Vector)
  | fetchTime
  | swapKeyboardBuffer
  | receive (packet : Packet)
  | popPacket
  | act
  | flip
  | halt

@[reducible] def Instr.Result : Instr → Type
  | .tryLock _ | .isLocked _ | .isIntEnabled | .initialized | .lookupIsr _ | .replaceIsr _
  | .swapKeyboardBuffer | .receive _ | .flip => Bool
  | .active | .takeActive | .dequeueReady | .removeReady _ | .dequeueTerminated => Option Thread
  | .fetchTime => Nat
  | .act => Act
  | .halt => Empty
  | _ => Unit

/-- The loops: the code of a thread that holds the given guards, and of the cleanup. -/
inductive Proc where
  | user (thread : Bool) (held : List Lock)
  | cleanup

abbrev Code (α : Type) : Type := Program Instr.Result Proc α

def perform (i : Instr) : Code i.Result := Program.perform i

def call (p : Proc) : Code Unit := .call p (.pure ())

def lock (l : Lock) : Code Unit := perform (.lock l)
def tryLock (l : Lock) : Code Bool := perform (.tryLock l)
def unlock (l : Lock) : Code Unit := perform (.unlock l)
def forceUnlock (l : Lock) : Code Unit := perform (.forceUnlock l)
def setInt (enabled : Bool) : Code Unit := perform (.setInt enabled)

def log : Code Unit := do
  lock .com1
  unlock .com1

/-- The panic handler logs and loops. -/
def panic {α : Type} : Code α := do
  log
  .op .halt Empty.elim

/-- `alloc` and `dealloc` of the global allocator. -/
def alloc : Code Unit := do
  lock .allocator
  unlock .allocator

/-- A line of the given number of characters on the terminal, which locks the framebuffer for each of them. -/
def println (chars : Nat) : Code Unit := do
  lock .terminal
  (List.replicate chars ()).forM fun _ => do
    lock .framebuffer
    unlock .framebuffer
  unlock .terminal

/-- The free list is printed under the lock, line by line. -/
def dumpFreeList (lines : List Nat) : Code Unit := do
  lock .allocator
  lines.forM println
  unlock .allocator

/-- `LinkedQueue::enqueue` allocates the node before it links it, and `dequeue` frees the node that it
has unlinked. -/
def readyEnqueue (thread : Thread) : Code Unit := do
  alloc
  perform (.enqueueReady thread)

def terminatedEnqueue (thread : Thread) : Code Unit := do
  alloc
  perform (.enqueueTerminated thread)

def freeNode (thread : Option Thread) : Code (Option Thread) :=
  match thread with
  | none => return none
  | some thread => do
    alloc
    return some thread

def readyDequeue : Code (Option Thread) := do freeNode (← perform .dequeueReady)

def terminatedDequeue : Code (Option Thread) := do freeNode (← perform .dequeueTerminated)

/-- Drop a `Box<Thread>`: its kernel stack, its user stack if it has one, and the box. -/
def dropBox (thread : Thread) : Code Unit := do
  perform (.dropThread thread)
  alloc
  if ← perform .flip then
    alloc
  alloc

/-- `thread_switch`: the flags are pushed, the TSS gets the top of the next stack, the stack changes, and on the
stack of the resumed thread the scheduler is unlocked and that thread's flags are popped. -/
def threadSwitch (next : Thread) : Code Unit := do
  let flags ← perform .isIntEnabled
  perform (.setRsp0 next)
  perform (.switchStack next)
  forceUnlock .scheduler
  setInt flags

def getActiveTid : Code Nat := do
  lock .scheduler
  match ← perform .active with
  | none => panic
  | some thread => do
    unlock .scheduler
    return thread.id

/-- `thread_start` does not return. -/
def schedule : Code Unit := do
  lock .scheduler
  perform .setInitialized
  match ← perform .active with
  | none => panic
  | some thread => do
    perform (.switchStack thread)
    .op .halt Empty.elim

/-- The thread is a new one, so that its node brings it into the kernel. -/
def ready (thread : Thread) : Code Unit := do
  lock .scheduler
  alloc
  perform (.enqueueNew thread)
  unlock .scheduler

def exit : Code Unit := do
  lock .scheduler
  match ← perform .takeActive with
  | none => panic
  | some current =>
    match ← readyDequeue with
    | none => panic
    | some next => do
      perform (.setActive next)
      terminatedEnqueue current
      threadSwitch next
      unlock .scheduler

def cleanupTerminatedThreads : Code Unit := do
  if ← tryLock .scheduler then
    call .cleanup
    unlock .scheduler

def yieldCpu : Code Unit := do
  if ← tryLock .scheduler then
    if ← perform .initialized then
      if ← perform (.isLocked .allocator) then
        unlock .scheduler
      else
        match ← readyDequeue with
        | none => unlock .scheduler
        | some next =>
          match ← perform .takeActive with
          | none => panic
          | some current => do
            perform (.setActive next)
            readyEnqueue current
            threadSwitch next
            unlock .scheduler
    else
      unlock .scheduler

/-- The removed node is dropped with its thread. -/
def kill (id : Nat) : Code Unit := do
  lock .scheduler
  match ← perform (.removeReady id) with
  | none => unlock .scheduler
  | some thread => do
    dropBox thread
    alloc
    unlock .scheduler

/-- `IntVectors::register` inside `without_interrupts`; a replaced handler is dropped. -/
def register (v : Vector) : Code Unit := do
  let ie ← perform .isIntEnabled
  setInt false
  lock .intVectors
  if ← perform (.replaceIsr v) then
    if ← perform .flip then
      alloc
  unlock .intVectors
  if ie then
    setInt true

/-- `KEYBOARD_BUFFER.init`: the first call allocates the queue. -/
def keyboardBuffer : Code Unit := do
  if ← perform .swapKeyboardBuffer then
    return
  else
    alloc

/-- `TimerISR::trigger`. -/
def timerTrigger : Code Unit := do
  let time ← perform .fetchTime
  if time % 250 = 0 then
    if ← tryLock .framebuffer then
      unlock .framebuffer
  if time % 10 = 0 then
    forceUnlock .intVectors
    yieldCpu

/-- `KeyboardISR::trigger`: the guard lives until the key is in the buffer. -/
def keyboardTrigger (scan : Scan) : Code Unit := do
  lock .keyboard
  match scan with
  | .incomplete => unlock .keyboard
  | .event => do
    keyboardBuffer
    unlock .keyboard
  | .fault => panic

def receiveLoop : List Packet → Code Unit
  | [] => return
  | packet :: packets => do
    if ← perform (.receive packet) then
      log
    receiveLoop packets

def processRxBuffer (packets : List Packet) : Code Unit := do
  if ← tryLock .rxState then
    receiveLoop packets
    unlock .rxState

def flushTxQueue : Code Unit := do
  if ← tryLock .txState then
    unlock .txState

/-- `Rtl8139ISR::trigger`. -/
def rtl8139Trigger (rx tx : Bool) (packets : List Packet) : Code Unit := do
  if rx then
    processRxBuffer packets
  if tx then
    flushTxQueue

def trigger : Interrupt → Code Unit
  | .pit => timerTrigger
  | .keyboard scan => keyboardTrigger scan
  | .rtl8139 rx tx packets => rtl8139Trigger rx tx packets

/-- The guard of `INT_VECTORS` lives until the handler has returned. -/
def dispatchInterrupt (i : Interrupt) : Code Unit := do
  lock .intVectors
  if ← perform (.lookupIsr i.vector) then
    trigger i
    unlock .intVectors
  else
    unlock .intVectors
    panic

def receivePacket : Code Unit := do
  lock .rxState
  perform .popPacket
  unlock .rxState

/-- The prepared stack of a new thread: `thread_switch` unlocks the scheduler and pops flags with
interrupts disabled, and the kickoff sets the TSS, enables interrupts, by itself or with the `iretq` to
ring 3, and enters the thread. -/
def kickoff (self : Thread) : Code Unit := do
  forceUnlock .scheduler
  setInt false
  perform (.setRsp0 self)
  setInt true
  call (.user true [])

/-- One action of a thread, or of the boot code, and the guards that it holds afterwards. `exit` is
for threads and `schedule` for the boot code. -/
def doAct (thread : Bool) (held : List Lock) : Act → Code (List Lock)
  | .acquire l =>
    if l.shared then do
      lock l
      return l :: held
    else return held
  | .tryAcquire l =>
    if l.shared then do
      if ← tryLock l then return l :: held else return held
    else return held
  | .release l =>
    if l ∈ held then do
      unlock l
      return held.erase l
    else return held
  | .alloc => do alloc; return held
  | .dumpFreeList lines => do dumpFreeList lines; return held
  | .ready t => do ready t; return held
  | .yieldCpu => do yieldCpu; return held
  | .exit => if thread then do exit; return held else return held
  | .kill id => do kill id; return held
  | .getActiveTid => do let _ ← getActiveTid; return held
  | .cleanup => do cleanupTerminatedThreads; return held
  | .register v => do register v; return held
  | .keyboardBuffer => do keyboardBuffer; return held
  | .receivePacket => do receivePacket; return held
  | .schedule => if thread then return held else do schedule; return held

def Proc.body : Proc → Code Unit
  | .user thread held => do
    let act ← perform .act
    let held ← doAct thread held act
    call (.user thread held)
  | .cleanup => do
    match ← terminatedDequeue with
    | none => return
    | some thread => do
      dropBox thread
      call .cleanup

end HeineOS.Kernel
