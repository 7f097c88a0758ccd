import HeineOS.Device.Serial
import HeineOS.Lib.Jobs
import Mathlib.Tactic.Ring

/-! The logger: contexts that run at the same time write their records to the serial port, each one under the lock
of the port. -/
namespace HeineOS.Logger
open Lib Serial Protocol

inductive Level where
  | error
  | warn
  | info
  | debug
  | trace
  deriving DecidableEq, Repr

structure Record where
  level : Level
  file : Option Text
  line : Option Nat
  args : Text
  deriving DecidableEq, Repr

def text (s : String) : Text := s.toUTF8.data.toList

def levelAbbreviation : Level → String
  | .trace => "TRC"
  | .debug => "DBG"
  | .info => "INF"
  | .warn => "WRN"
  | .error => "ERR"

/-- The last component of the path. -/
def fileName (r : Record) : Text :=
  ((r.file.getD (text "unknown")).reverse.takeWhile (· ≠ 0x2f)).reverse

/-- The pieces of a formatted record. `seconds` is how a time in milliseconds is printed in seconds. -/
def pieces (seconds : Nat → Text) (time : Nat) (r : Record) : List Text :=
  [text "[",seconds time,text "][",text (levelAbbreviation r.level),text "][",fileName r,text "@",
    text (r.line.getD 0).repr,text "] ",r.args,text "\n"]

/-- Everything is logged. -/
def enabled (_ : Level) : Bool := true

def log (seconds : Nat → Text) (com1 : ComPort) (r : Record) : Code Unit := do
  if enabled r.level then
    perform .lock
    let time ← perform .systemTime
    com1.writeFmt (pieces seconds time r)
    perform .unlock

/-- A context logs its records one after the other. -/
def logAll (seconds : Nat → Text) (com1 : ComPort) : List Record → Code Unit
  | [] => call .idle
  | r :: rs => do
    log seconds com1 r
    logAll seconds com1 rs

structure Shared where
  locked : Bool
  time : Nat
  uart : Uart

/-- The clock goes on, and the port takes the next byte. -/
inductive Env where
  | tick
  | drain

section
variable (base : ComBaseAddress)

/-- A lock that is held keeps the others spinning. -/
def Shared.perform (other : UInt8) (s : Shared) : (i : Op) → Option (i.Result × Shared)
  | .lock => if s.locked then none else some ((),{ s with locked := true })
  | .unlock => some ((),{ s with locked := false })
  | .systemTime => some (s.time,s)
  | .outb port v => some ((),{ s with uart := outb base s.uart port v })
  | .inb port => some (inb base s.uart port other,s)

/-- The clock is a 64-bit number of milliseconds. -/
def env : Env → Shared → Option Shared
  | .tick, s => if s.time + 1 < 2^64 then some { s with time := s.time + 1 } else none
  | .drain, s => some { s with uart := s.uart.drain }

variable {ι : Type} (seconds : Nat → Text) (records : ι → List Record)

def conc : Conc ι UInt8 Env Shared Op.Result Proc where
  perform _ := Shared.perform base
  env
  body := Proc.body

/-- The port has been set up, and nothing has been sent yet. -/
def Initial (s : Conf ι Shared Op.Result Proc) : Prop :=
  s.shared.locked = false ∧
    (∃ u : Uart, u.sent = [] ∧ s.shared.uart = (ComPort.new base).init base u) ∧
    s.code = fun c => logAll seconds (.new base) (records c)

def system [DecidableEq ι] : System (Conf ι Shared Op.Result Proc) (Move ι UInt8 Env) :=
  (conc base).system (Initial base seconds records)

end

/-- A record as it is written. -/
def line (seconds : Nat → Text) (time : Nat) (r : Record) : Text := (pieces seconds time r).flatten

/-- A record that has been logged, by whom and when. -/
structure Entry (ι : Type) where
  context : ι
  time : Nat
  record : Record

def Entry.line {ι : Type} (seconds : Nat → Text) (e : Entry ι) : Text := Logger.line seconds e.time e.record

/-- What a context has logged. -/
def loggedBy {ι : Type} [DecidableEq ι] (entries : List (Entry ι)) : ι → List Record :=
  doneBy Entry.context Entry.record entries

/-- How far a context that holds the lock has come: it has not read the clock yet, it waits for the port, or the
port is ready for the next byte. -/
inductive Stage where
  | held (r : Record)
  | writing (time : Nat) (r : Record) (rest : Text)
  | ready (time : Nat) (r : Record) (rest : Text)

def Stage.record : Stage → Record
  | held r | writing _ r _ | ready _ r _ => r

abbrev Local := Worker Stage Record

namespace Local
variable (seconds : Nat → Text) (com1 : ComPort) (g : Local)

def Allowed : Op → Prop
  | .lock => g.stage = none ∧ ∃ r rs, g.todo = r :: rs
  | .systemTime => ∃ r, g.stage = some (.held r)
  | .inb port => port = com1.lineStatusPort ∧ ∃ time r rest, g.stage = some (.writing time r rest)
  | .outb port v => port = com1.dataPort ∧ ∃ time r rest, g.stage = some (.ready time r (v :: rest))
  | .unlock => ∃ time r, g.stage = some (.writing time r [])

def after : (i : Op) → i.Result → Local
  | .lock, _ => { g with stage := g.todo.head?.map .held }
  | .systemTime, time =>
    match g.stage with
    | some (.held r) => { g with stage := some (.writing time r (crlf (line seconds time r))) }
    | _ => g
  | .inb _, status =>
    match g.stage with
    | some (.writing time r rest) =>
      if status &&& READY_TO_WRITE ≠ 0 then { g with stage := some (.ready time r rest) } else g
    | _ => g
  | .outb _ _, _ =>
    match g.stage with
    | some (.ready time r rest) => { g with stage := some (.writing time r rest.tail) }
    | _ => g
  | .unlock, _ => ⟨none,g.todo.tail⟩

end Local

section
variable (seconds : Nat → Text) (com1 : ComPort)

def protocol : Protocol Op.Result Proc Local where
  allowed := Local.Allowed com1
  next g i r g' := g' = g.after seconds i r
  pre
    | .waitReady port, g => port = com1 ∧ ∃ time r rest, g.stage = some (.writing time r rest)
    | .idle, g => g = ⟨none,[]⟩
  post
    | .waitReady _, g, g' => ∀ time r rest, g.stage = some (.writing time r rest) →
        g' = { g with stage := some (.ready time r rest) }
    | .idle, _, _ => False

end

section
variable {seconds : Nat → Text} {com1 : ComPort} {α : Type} {g : Local}

private theorem perform_follows {Q : Local → α → Prop} {i : Op} {f : i.Result → Code α} (ha : g.Allowed com1 i)
    (hf : ∀ r, (protocol seconds com1).Follows Q (g.after seconds i r) (f r)) :
    (protocol seconds com1).Follows Q g (Serial.perform i >>= f) := by
  refine ⟨ha,?_⟩
  rintro r _ rfl
  exact hf r

private theorem waitReady_follows {time : Nat} {r : Record} {rest : Text} {todo : List Record} :
    (protocol seconds com1).Follows (fun g' _ => g' = ⟨some (.ready time r rest),todo⟩)
      ⟨some (.writing time r rest),todo⟩ (Proc.body (.waitReady com1)) := by
  refine perform_follows ⟨rfl,time,r,rest,rfl⟩ fun status => ?_
  by_cases hready : status &&& READY_TO_WRITE ≠ 0
  · rw [if_pos hready]
    exact if_pos hready
  · rw [if_neg hready]
    have hsame : Local.after seconds ⟨some (.writing time r rest),todo⟩ (.inb com1.lineStatusPort) status =
        ⟨some (.writing time r rest),todo⟩ := if_neg hready
    rw [hsame]
    exact ⟨⟨rfl,time,r,rest,rfl⟩,fun _ hpost => hpost time r rest rfl⟩

private theorem send_follows {time : Nat} {r : Record} {byte : UInt8} {rest : Text} {todo : List Record} :
    (protocol seconds com1).Follows (fun g' _ => g' = ⟨some (.writing time r rest),todo⟩)
      ⟨some (.writing time r (byte :: rest)),todo⟩ (com1.send byte) := by
  refine ⟨⟨rfl,time,r,_,rfl⟩,fun g' hpost => ?_⟩
  rw [hpost time r _ rfl]
  exact perform_follows (f := .pure) ⟨rfl,time,r,rest,rfl⟩ fun _ => rfl

private theorem writeByte_follows {time : Nat} {r : Record} {byte : UInt8} {rest : Text} {todo : List Record} :
    (protocol seconds com1).Follows (fun g' _ => g' = ⟨some (.writing time r rest),todo⟩)
      ⟨some (.writing time r (crlf [byte] ++ rest)),todo⟩ (com1.writeByte byte) := by
  rw [crlf_cons,ComPort.writeByte]
  by_cases hbyte : byte = NEWLINE
  · rw [if_pos hbyte,if_pos hbyte]
    refine Follows.bind (send_follows.mono ?_)
    rintro _ _ rfl
    exact send_follows
  · rw [if_neg hbyte,if_neg hbyte]
    exact send_follows

private theorem writeStr_follows {time : Nat} {r : Record} {rest : Text} {todo : List Record} (s : Text) :
    (protocol seconds com1).Follows (fun g' _ => g' = ⟨some (.writing time r rest),todo⟩)
      ⟨some (.writing time r (crlf s ++ rest)),todo⟩ (com1.writeStr s) := by
  induction s with
  | nil => rfl
  | cons byte s ih =>
    have hsplit : crlf (byte :: s) ++ rest = crlf [byte] ++ (crlf s ++ rest) := by
      rw [← List.singleton_append,crlf_append,List.append_assoc]
    rw [hsplit,ComPort.writeStr]
    refine Follows.bind (writeByte_follows.mono ?_)
    rintro _ _ rfl
    exact ih

private theorem writeFmt_follows {time : Nat} {r : Record} {rest : Text} {todo : List Record} (ps : List Text) :
    (protocol seconds com1).Follows (fun g' _ => g' = ⟨some (.writing time r rest),todo⟩)
      ⟨some (.writing time r (crlf ps.flatten ++ rest)),todo⟩ (com1.writeFmt ps) := by
  induction ps with
  | nil => rfl
  | cons piece ps ih =>
    rw [List.flatten_cons,crlf_append,List.append_assoc,ComPort.writeFmt]
    refine Follows.bind ((writeStr_follows piece).mono ?_)
    rintro _ _ rfl
    exact ih

private theorem log_follows {r : Record} {rs : List Record} :
    (protocol seconds com1).Follows (fun g' _ => g' = ⟨none,rs⟩) ⟨none,r :: rs⟩ (log seconds com1 r) := by
  refine perform_follows ⟨rfl,r,rs,rfl⟩ fun _ => perform_follows ⟨r,rfl⟩ fun time => Follows.bind ?_
  have hwrite := @writeFmt_follows seconds com1 time r [] (r :: rs) (pieces seconds time r)
  rw [List.append_nil] at hwrite
  refine hwrite.mono ?_
  rintro _ _ rfl
  exact perform_follows (f := .pure) ⟨time,r,rfl⟩ fun _ => rfl

private theorem logAll_follows (rs : List Record) :
    (protocol seconds com1).Follows (fun _ _ => False) ⟨none,rs⟩ (logAll seconds com1 rs) := by
  induction rs with
  | nil => exact ⟨rfl,fun _ hpost => hpost⟩
  | cons r rs ih =>
    refine Follows.bind (log_follows.mono ?_)
    rintro _ _ rfl
    exact ih

private theorem body_sound : (protocol seconds com1).Sound Proc.body := by
  intro p g hp
  cases p with
  | waitReady port =>
    obtain ⟨rfl,time,r,rest,hstage⟩ := hp
    obtain ⟨stage,todo⟩ := g
    obtain rfl : stage = _ := hstage
    refine waitReady_follows.mono ?_
    rintro _ _ rfl time' r' rest' hstage'
    cases hstage'
    rfl
  | idle =>
    obtain rfl : g = ⟨none,[]⟩ := hp
    exact ⟨rfl,fun _ hpost => hpost⟩

end

/-- The registers that decide how bytes go over the line are as the kernel set them. -/
structure SetUp (u : Uart) : Prop where
  lineControl : u.lineControl = 0x03
  divisorLow : u.divisorLow = 1
  divisorHigh : u.divisorHigh = 0

namespace SetUp
variable {u : Uart} {base : ComBaseAddress}

theorem of_init : SetUp ((ComPort.new base).init base u) := by
  rw [init_spec]
  exact ⟨rfl,rfl,rfl⟩

private theorem latch (h : SetUp u) : u.divisorLatch = false := by
  rw [Uart.divisorLatch,h.lineControl]
  decide

private theorem framing (h : SetUp u) : u.framing = eightBits := by
  rw [Uart.framing,h.lineControl,h.divisorLow,h.divisorHigh]
  rfl

/-- A byte that the port is ready for is sent behind the others. -/
private theorem outb (h : SetUp u) (hready : u.ready = true) (v : UInt8) :
    Serial.outb base u (ComPort.new base).dataPort v =
      { u with ready := false, sent := u.sent ++ [(eightBits,v)] } := by
  rw [outb_data,Uart.outb,if_neg (by rw [h.latch]; exact Bool.false_ne_true),Uart.transmit,if_pos hready,h.framing]

end SetUp

section
variable {ι : Type} (seconds : Nat → Text) (entries : List (Entry ι))

/-- What has been sent are the entries, and a part of one more. -/
def Sent (part : Text) (u : Uart) : Prop :=
  u.sent = ((entries.flatMap fun e => crlf (e.line seconds)) ++ part).map fun byte => (eightBits,byte)

/-- A record is being written: a part of it has been sent, and the rest is still to come. -/
def Underway (s : Shared) (time : Nat) (r : Record) (rest : Text) : Prop :=
  (∃ part, part ++ rest = crlf (line seconds time r) ∧ Sent seconds entries part s.uart) ∧
    time ≤ s.time ∧ ∀ e ∈ entries, e.time ≤ time

def Stage.At (s : Shared) : Stage → Prop
  | .held _ => Sent seconds entries [] s.uart
  | .writing time r rest => Underway seconds entries s time r rest
  | .ready time r rest => s.uart.ready = true ∧ Underway seconds entries s time r rest

/-- The lock guards the port, whose registers stay as they were set, and the records are logged in the order of their
times. -/
structure Inv [DecidableEq ι] (records : ι → List Record) (s : Shared) (v : ι → Local) : Prop where
  working : Working s.locked (Sent seconds entries [] s.uart) (Stage.At seconds entries s) Stage.record records
    (loggedBy entries) v
  setUp : SetUp s.uart
  ordered : (entries.map Entry.time).Pairwise (· ≤ ·)
  past : ∀ e ∈ entries, e.time ≤ s.time

end

namespace Inv
variable {ι : Type} [DecidableEq ι] {seconds : Nat → Text} {entries : List (Entry ι)} {records : ι → List Record}
  {s s' : Shared} {v : ι → Local} {c : ι}

/-- The context in the section goes on with its record. -/
private theorem advance (h : Inv seconds entries records s v) {g g' : Stage} (hc : (v c).stage = some g)
    (hat : g'.At seconds entries s') (hrecord : g'.record = g.record) (hlocked : s'.locked = s.locked)
    (hsetUp : SetUp s'.uart) (htime : s'.time = s.time) :
    Inv seconds entries records s' (Function.update v c { v c with stage := some g' }) where
  working := by
    rw [hlocked]
    exact h.working.advance hc hrecord hat
  setUp := hsetUp
  ordered := h.ordered
  past e he := htime ▸ h.past e he

private theorem lock (h : Inv seconds entries records s v) (ha : (v c).stage = none ∧ ∃ r rs, (v c).todo = r :: rs)
    (hfree : s.locked = false) :
    Inv seconds entries records { s with locked := true } (Function.update v c ((v c).after seconds .lock ())) := by
  obtain ⟨-,r,rs,htodo⟩ := ha
  have hafter : (v c).after seconds .lock () = { v c with stage := some (.held r) } := by
    change Worker.mk ((v c).todo.head?.map Stage.held) (v c).todo = ⟨some (.held r),(v c).todo⟩
    rw [htodo]
    rfl
  have hworking := h.working
  rw [hfree] at hworking
  rw [hafter]
  exact ⟨hworking.acquire (g := .held r) htodo id,h.setUp,h.ordered,h.past⟩

/-- The record is complete when the lock is given back. -/
private theorem unlock (h : Inv seconds entries records s v) {time : Nat} {r : Record}
    (ha : (v c).stage = some (.writing time r [])) :
    Inv seconds (entries ++ [⟨c,time,r⟩]) records { s with locked := false }
      (Function.update v c ((v c).after seconds .unlock ())) := by
  obtain ⟨⟨part,hpart,hsent⟩,htime,hpast⟩ := h.working.guarded.inside ha
  rw [List.append_nil] at hpart
  constructor
  case working =>
    rw [loggedBy,doneBy_concat]
    refine h.working.release ha ?_
    rw [Sent,hsent,List.flatMap_append,List.append_nil,hpart]
    simp [Entry.line]
  case setUp => exact h.setUp
  case ordered =>
    rw [List.map_append,List.pairwise_append]
    refine ⟨h.ordered,List.pairwise_singleton _ _,?_⟩
    intro t ht t' ht'
    obtain ⟨e,he,rfl⟩ := List.mem_map.mp ht
    obtain rfl : t' = time := List.mem_singleton.mp ht'
    exact hpast e he
  case past =>
    intro e he
    rcases List.mem_append.mp he with he | he
    · exact h.past e he
    · rw [List.mem_singleton.mp he]
      exact htime

private theorem systemTime (h : Inv seconds entries records s v) (ha : ∃ r, (v c).stage = some (.held r)) :
    Inv seconds entries records s (Function.update v c ((v c).after seconds .systemTime s.time)) := by
  obtain ⟨r,hg⟩ := ha
  have hsent := h.working.guarded.inside hg
  simp only [Local.after, hg]
  exact h.advance hg ⟨⟨[],rfl,hsent⟩,Nat.le_refl _,h.past⟩ rfl rfl h.setUp rfl

private theorem inb (h : Inv seconds entries records s v) {base : ComBaseAddress} {port : UInt16} (other : UInt8)
    (ha : (v c).Allowed (.new base) (.inb port)) :
    Inv seconds entries records s
      (Function.update v c ((v c).after seconds (.inb port) (Serial.inb base s.uart port other))) := by
  obtain ⟨rfl,time,r,rest,hg⟩ := ha
  have hat := h.working.guarded.inside hg
  simp only [Local.after, hg]
  split
  · rename_i hready
    rw [inb_lineStatus] at hready
    exact h.advance hg ⟨(Uart.inb_ready _ _).mp hready,hat⟩ rfl rfl h.setUp rfl
  · rw [Function.update_eq_self]
    exact h

private theorem outb (h : Inv seconds entries records s v) {base : ComBaseAddress} {port : UInt16} {byte : UInt8}
    (ha : (v c).Allowed (.new base) (.outb port byte)) :
    Inv seconds entries records { s with uart := Serial.outb base s.uart port byte }
      (Function.update v c ((v c).after seconds (.outb port byte) ())) := by
  obtain ⟨rfl,time,r,rest,hg⟩ := ha
  obtain ⟨hready,⟨part,hpart,hsent⟩,htime,hpast⟩ := h.working.guarded.inside hg
  simp only [Local.after, hg, h.setUp.outb hready]
  refine h.advance hg ⟨⟨part ++ [byte],?_,?_⟩,htime,hpast⟩ rfl rfl ?_ rfl
  · rw [List.append_assoc,← hpart]
    rfl
  · change s.uart.sent ++ [(eightBits,byte)] = _
    rw [hsent,← List.append_assoc]
    simp only [List.map_append, List.map_cons, List.map_nil]
  · exact ⟨h.setUp.lineControl,h.setUp.divisorLow,h.setUp.divisorHigh⟩

/-- At most one record has been begun. -/
private theorem begun_part (h : Inv seconds entries records s v) :
    ∃ part, Sent seconds entries part s.uart ∧ (s.locked = false → part = []) ∧
      (part ≠ [] → ∃ e : Entry ι, part <+: crlf (e.line seconds) ∧
        loggedBy entries e.context ++ [e.record] <+: records e.context ∧ ∀ e' ∈ entries, e'.time ≤ e.time) := by
  by_cases hnone : ∀ c, (v c).stage = none
  · exact ⟨[],h.working.guarded.rest hnone,fun _ => rfl,fun hne => absurd rfl hne⟩
  obtain ⟨c,hc⟩ := not_forall.mp hnone
  obtain ⟨g,hg⟩ := Option.ne_none_iff_exists'.mp hc
  have hlocked : s.locked = true := h.working.guarded.locked hg
  have hunderway {time : Nat} {r : Record} {rest : Text} (hrecord : g.record = r)
      (hat : Underway seconds entries s time r rest) :
      ∃ part, Sent seconds entries part s.uart ∧ (s.locked = false → part = []) ∧
        (part ≠ [] → ∃ e : Entry ι, part <+: crlf (e.line seconds) ∧
          loggedBy entries e.context ++ [e.record] <+: records e.context ∧ ∀ e' ∈ entries, e'.time ≤ e.time) := by
    obtain ⟨⟨part,hpart,hsent⟩,-,hpast⟩ := hat
    have hbefore := h.working.underway hg
    rw [hrecord] at hbefore
    refine ⟨part,hsent,fun hfree => ?_,fun _ => ⟨⟨c,time,r⟩,⟨rest,hpart⟩,hbefore,hpast⟩⟩
    rw [hlocked] at hfree
    cases hfree
  have hat := h.working.guarded.inside hg
  cases g with
  | held r => exact ⟨[],hat,fun _ => rfl,fun hne => absurd rfl hne⟩
  | writing time r rest => exact hunderway rfl hat
  | ready time r rest => exact hunderway rfl hat.2

/-- The clock and the port go on by themselves. -/
private theorem env {e : Env} (h : Inv seconds entries records s v) (he : env e s = some s') :
    Inv seconds entries records s' v := by
  cases e with
  | tick =>
    rw [Logger.env] at he
    split at he
    · cases he
      refine { h with working := h.working.mono ?_ id, past := fun e he => Nat.le_succ_of_le (h.past e he) }
      intro g hat
      cases g with
      | held r => exact hat
      | writing time r rest => exact ⟨hat.1,Nat.le_succ_of_le hat.2.1,hat.2.2⟩
      | ready time r rest => exact ⟨hat.1,hat.2.1,Nat.le_succ_of_le hat.2.2.1,hat.2.2.2⟩
    · cases he
  | drain =>
    cases he
    refine { h with
      working := h.working.mono ?_ id
      setUp := ⟨h.setUp.lineControl,h.setUp.divisorLow,h.setUp.divisorHigh⟩ }
    intro g hat
    cases g with
    | held r => exact hat
    | writing time r rest => exact hat
    | ready time r rest => exact ⟨rfl,hat.2⟩

end Inv

section
variable {ι : Type} [DecidableEq ι] {base : ComBaseAddress} {seconds : Nat → Text} {records : ι → List Record}
  {s : Conf ι Shared Op.Result Proc}

private theorem upholds : (@conc base ι).Upholds (protocol seconds (.new base)) (fun _ _ _ _ => True)
    (fun _ _ => True) fun s v => ∃ entries, Inv seconds entries records s v where
  sound := body_sound
  op := by
    rintro c other s i r s' v ⟨entries,h⟩ ha - hperform
    refine ⟨_,rfl,?_⟩
    cases i with
    | lock =>
      simp only [conc, Shared.perform] at hperform
      split at hperform
      · cases hperform
      · rename_i hfree
        cases hperform
        exact ⟨entries,h.lock ha (Bool.not_eq_true _ ▸ hfree)⟩
    | unlock =>
      cases hperform
      obtain ⟨time,r,hg⟩ := ha
      exact ⟨_,h.unlock hg⟩
    | systemTime =>
      cases hperform
      exact ⟨entries,h.systemTime ha⟩
    | outb port byte =>
      cases hperform
      exact ⟨entries,h.outb ha⟩
    | inb port =>
      cases hperform
      exact ⟨entries,h.inb other ha⟩
  env := by
    rintro e s s' v ⟨entries,h⟩ - he
    exact ⟨entries,h.env he⟩

private theorem keeping_initial (h : Initial base seconds records s) :
    ∃ v, Conc.Keeping (protocol seconds (.new base)) (fun s v => ∃ entries, Inv seconds entries records s v) s v := by
  obtain ⟨hfree,⟨u,hsent,huart⟩,hcode⟩ := h
  refine ⟨fun c => ⟨none,records c⟩,⟨[],?_⟩,?_⟩
  · constructor
    case working =>
      rw [hfree]
      apply Working.start
      rw [Sent,huart,init_spec]
      exact hsent
    case setUp =>
      rw [huart]
      exact .of_init
    case ordered => exact .nil
    case past => exact fun e he => absurd he List.not_mem_nil
  · intro c
    rw [hcode]
    exact logAll_follows (records c)

/-- Whatever the contexts do at the same time, the serial line carries whole records, one after the other: those of
each context in its order, without gaps, and all in the order of their times. At most one more record has been
begun, by the context that holds the lock. With the carriage returns dropped the line reads as the records were
written, and no context ends before all its records have been sent. -/
theorem records_whole (h : (system base seconds records).Reachable s) :
    ∃ (entries : List (Entry ι)) (part : Text),
      s.shared.uart.sent =
        ((entries.flatMap fun e => crlf (e.line seconds)) ++ part).map (fun byte => (eightBits,byte)) ∧
      (∀ c, loggedBy entries c <+: records c ∧ (s.code c = call .idle → loggedBy entries c = records c)) ∧
      (entries.map Entry.time).Pairwise (· ≤ ·) ∧
      (s.shared.locked = false → part = [] ∧
        dropReturns (s.shared.uart.sent.map Prod.snd) = entries.flatMap (Entry.line seconds)) ∧
      (part ≠ [] → ∃ e : Entry ι, part <+: crlf (e.line seconds) ∧
        loggedBy entries e.context ++ [e.record] <+: records e.context ∧ ∀ e' ∈ entries, e'.time ≤ e.time) := by
  obtain ⟨v,⟨entries,hinv⟩,hfollows⟩ := upholds.always (fun _ => keeping_initial) h
  obtain ⟨part,hsent,hfree,hpart⟩ := hinv.begun_part
  refine ⟨entries,part,hsent,fun c => ⟨⟨_,hinv.working.accounts c⟩,fun hcode => ?_⟩,hinv.ordered,?_,hpart⟩
  · have hidle := hfollows c
    rw [hcode] at hidle
    exact hinv.working.finished (congrArg Worker.todo (show v c = ⟨none,[]⟩ from hidle.1))
  · intro hlocked
    obtain rfl := hfree hlocked
    refine ⟨rfl,?_⟩
    have hbytes : s.shared.uart.sent.map Prod.snd = crlf (entries.flatMap (Entry.line seconds)) := by
      rw [hsent,List.append_nil,List.map_map,crlf,List.flatMap_assoc]
      exact List.map_id _
    rw [hbytes,dropReturns_crlf]

end

/-- Two contexts with a record each, and a port as it is after power-on. -/
def twoRecords (c : Bool) : List Record := [⟨.info,some (text "src/boot.rs"),some 105,text (if c then "b" else "a")⟩]

def milliseconds (time : Nat) : Text := text (if time = 0 then "0" else "0.001")

def twoStart : Conf Bool Shared Op.Result Proc where
  shared := ⟨false,0,(ComPort.new .com1).init .com1 ⟨0,0,0,0,true,[]⟩⟩
  code c := logAll milliseconds (.new .com1) (twoRecords c)

/-- A context sends `n` bytes. -/
private def bytes (c : Bool) (n : Nat) : List (Move Bool UInt8 Env) :=
  (List.replicate n [.run c 0,.run c 0,.run c 0,.env .drain]).flatten

theorem records_whole_sample :
    ∃ s : Conf Bool Shared Op.Result Proc, (system .com1 milliseconds twoRecords).Reachable s ∧
      s.shared.uart.sent.map Prod.snd = text "[0][INF][boot.rs@105] a\r\n[0.001]" ∧
      ∃ (entries : List (Entry Bool)) (part : Text),
        s.shared.uart.sent = ((entries.flatMap fun e => crlf (e.line milliseconds)) ++ part).map
          (fun byte => (eightBits,byte)) ∧ loggedBy entries true <+: twoRecords true := by
  have hrun : ((conc .com1).execAll (fun _ _ => true) twoStart
      (.run false 0 :: .run false 0 :: (bytes false 26 ++ .run false 0 :: .env .tick :: .run true 0 :: .run true 0 ::
        bytes true 7))).any
      (fun s => s.shared.uart.sent.map Prod.snd == text "[0][INF][boot.rs@105] a\r\n[0.001]") = true := by
    decide +kernel
  obtain ⟨s,hs,hgoal⟩ := (Option.any_eq_true _ _).mp hrun
  have hr : (system .com1 milliseconds twoRecords).Reachable s :=
    System.Reachable.of_restrict ⟨twoStart,_,⟨rfl,⟨_,rfl,rfl⟩,rfl⟩,Conc.run_of_execAll hs⟩
  obtain ⟨entries,part,hsent,hlogged,-⟩ := records_whole hr
  exact ⟨s,hr,eq_of_beq hgoal,entries,part,hsent,(hlogged true).1⟩

end HeineOS.Logger
