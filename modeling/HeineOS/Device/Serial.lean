import HeineOS.Lib.Conc
import HeineOS.Lib.Uart

/-! The driver of the serial port. It only sends. -/
namespace HeineOS.Serial
open Lib

/-- Texts are read and written as the bytes of their UTF-8 encoding. -/
abbrev Text := List UInt8

inductive ComBaseAddress where
  | com1
  | com2
  | com3
  | com4
  deriving DecidableEq, Repr

def ComBaseAddress.port : ComBaseAddress → UInt16
  | com1 => 0x3f8
  | com2 => 0x2f8
  | com3 => 0x3e8
  | com4 => 0x2e8

structure ComPort where
  dataPort : UInt16
  interruptControlPort : UInt16
  lineControlPort : UInt16
  lineStatusPort : UInt16
  deriving DecidableEq, Repr

def READY_TO_WRITE : UInt8 := 0x20

def NEWLINE : UInt8 := 10
def CARRIAGE_RETURN : UInt8 := 13

/-- What the code does on the outside: the lock that the port is behind, the clock and the ports. -/
inductive Op where
  | lock
  | unlock
  | systemTime
  | outb (port : UInt16) (v : UInt8)
  | inb (port : UInt16)

abbrev Op.Result : Op → Type
  | .systemTime => Nat
  | .inb _ => UInt8
  | _ => Unit

/-- The loop that waits for the port, and the one of a context that has nothing left to do. -/
inductive Proc where
  | waitReady (port : ComPort)
  | idle

abbrev Code := Program Op.Result Proc

def perform (i : Op) : Code i.Result := Program.perform i
def call (p : Proc) : Code Unit := .call p (.pure ())

namespace ComPort
variable (port : ComPort)

def new (base : ComBaseAddress) : ComPort where
  dataPort := base.port
  interruptControlPort := base.port + 1
  lineControlPort := base.port + 3
  lineStatusPort := base.port + 5

/-- Wait until the port is ready, and send. -/
def send (byte : UInt8) : Code Unit := do
  call (.waitReady port)
  perform (.outb port.dataPort byte)

/-- For a newline the function calls itself with a carriage return first. -/
def writeByte (byte : UInt8) : Code Unit := do
  if byte = NEWLINE then port.send CARRIAGE_RETURN
  port.send byte

def writeStr : Text → Code Unit
  | [] => pure ()
  | byte :: s => do
    port.writeByte byte
    writeStr s

/-- A formatted text is written piece by piece. -/
def writeFmt : List Text → Code Unit
  | [] => pure ()
  | piece :: pieces => do
    port.writeStr piece
    writeFmt pieces

end ComPort

def Proc.body : Proc → Code Unit
  | .waitReady port => do
    let status ← perform (.inb port.lineStatusPort)
    if status &&& READY_TO_WRITE ≠ 0 then pure () else call (.waitReady port)
  | .idle => call .idle

/-- The chip behind the eight ports from a base address on. -/
def outb (base : ComBaseAddress) (u : Uart) (port : UInt16) (v : UInt8) : Uart :=
  if base.port ≤ port ∧ port < base.port + 8 then u.outb (port - base.port).toNat v else u

def inb (base : ComBaseAddress) (u : Uart) (port : UInt16) (other : UInt8) : UInt8 :=
  if base.port ≤ port ∧ port < base.port + 8 then u.inb (port - base.port).toNat other else other

/-- 115200 baud, 8 data bits, 1 stop bit, no parity and no interrupts. The kernel sets the port up before it starts
anything else. -/
def ComPort.init (port : ComPort) (base : ComBaseAddress) (u : Uart) : Uart :=
  let u := outb base u port.interruptControlPort 0x00
  let u := outb base u port.lineControlPort 0x80
  let u := outb base u port.dataPort 0x01
  let u := outb base u port.interruptControlPort 0x00
  outb base u port.lineControlPort 0x03

/-- How bytes go over the line then. -/
def eightBits : Framing := ⟨1,0x03⟩

/-- The bytes of a text as they go over the line. -/
def crlf (s : Text) : Text := s.flatMap fun byte => if byte = NEWLINE then [CARRIAGE_RETURN,byte] else [byte]

/-- The byte in front of every newline is dropped. -/
def dropReturns : Text → Text
  | [] => []
  | [byte] => [byte]
  | byte :: byte' :: s => if byte' = NEWLINE then byte' :: dropReturns s else byte :: dropReturns (byte' :: s)

section
variable {base : ComBaseAddress} {u : Uart}

theorem crlf_cons (byte : UInt8) (s : Text) :
    crlf (byte :: s) = (if byte = NEWLINE then [CARRIAGE_RETURN,byte] else [byte]) ++ crlf s := List.flatMap_cons

theorem crlf_append (s t : Text) : crlf (s ++ t) = crlf s ++ crlf t := List.flatMap_append

private theorem outb_interruptControl (v : UInt8) :
    outb base u (ComPort.new base).interruptControlPort v = u.outb 1 v := by
  cases base <;> rfl

private theorem outb_lineControl (v : UInt8) : outb base u (ComPort.new base).lineControlPort v = u.outb 3 v := by
  cases base <;> rfl

theorem outb_data (v : UInt8) : outb base u (ComPort.new base).dataPort v = u.outb 0 v := by
  cases base <;> rfl

theorem inb_lineStatus (other : UInt8) : inb base u (ComPort.new base).lineStatusPort other = u.inb 5 other := by
  cases base <;> rfl

/-- The line is set up whatever the registers were. The interrupts are turned off only if the divisor latch was not
set before. -/
theorem init_spec : (ComPort.new base).init base u =
    ⟨0x03,if u.divisorLatch then u.interrupts else 0,1,0,u.ready,u.sent⟩ := by
  have hfirst : u.outb 1 0 = if u.divisorLatch then { u with divisorHigh := 0 } else { u with interrupts := 0 } := rfl
  have hrest (u : Uart) : ((((u.outb 3 0x80).outb 0 0x01).outb 1 0x00).outb 3 0x03) =
      ⟨0x03,u.interrupts,1,0,u.ready,u.sent⟩ := by
    have hlatch : decide ((0x80 : UInt8) &&& 0x80 ≠ 0) = true := by decide
    simp only [Uart.outb, Uart.divisorLatch, hlatch, if_true]
  simp only [ComPort.init, outb_interruptControl, outb_lineControl, outb_data, hfirst, hrest]
  cases u.divisorLatch with
  | true => rfl
  | false => rfl

/-- What is sent can be turned back into the text, whatever bytes are in it. -/
theorem dropReturns_crlf (s : Text) : dropReturns (crlf s) = s := by
  induction s with
  | nil => rfl
  | cons byte s ih =>
    rw [crlf_cons]
    by_cases hbyte : byte = NEWLINE
    · rw [if_pos hbyte,List.cons_append,List.cons_append,List.nil_append,dropReturns,if_pos hbyte,ih]
    · rw [if_neg hbyte,List.singleton_append]
      cases s with
      | nil => rfl
      | cons next s =>
        -- the encoding of the rest never starts with a newline
        rw [crlf_cons] at ih ⊢
        split at ih
        · rename_i hnext
          rw [if_pos hnext,List.cons_append] at *
          rw [dropReturns,if_neg (by decide),ih]
        · rename_i hnext
          rw [if_neg hnext,List.singleton_append] at *
          rw [dropReturns,if_neg hnext,ih]

end

end HeineOS.Serial
