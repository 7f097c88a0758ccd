import HeineOS.Device.KeyEvents
import HeineOS.Device.Locks
import HeineOS.Lib.System

/-! The keyboard interrupt handler at the ports of the controller: the bytes that wait there, the handshake that sets
the LEDs, and the events that reach the readers. -/
namespace HeineOS.Keyboard
open Lib

def ACK : UInt8 := 0xfa

/-- The branches that call `set_led`. -/
def SetsLed (k : Keyboard) (code : UInt8) : Prop :=
  code = 58 ∨ code = 70 ∨ (code = 69 ∧ k.gather.modifiers.contains .ctrlLeft = false)

instance (k : Keyboard) (code : UInt8) : Decidable (SetsLed k code) := inferInstanceAs (Decidable (_ ∨ _))

private theorem decodeMake_wired (k : Wired) (code p : UInt8) :
    k.decodeMake code p = (k.toKeyboard.decodeMake code p).map fun r =>
      (⟨r.1,if SetsLed k.toKeyboard code then k.sent ++ [SET_LED,ledBits r.1.leds] else k.sent⟩,r.2) := by
  rw [Wired.decodeMake]
  by_cases h58 : code = 58
  · have hsets : SetsLed k.toKeyboard code := .inl h58
    simp only [if_pos h58, if_pos hsets]
    rw [h58]
    rfl
  rw [if_neg h58]
  by_cases h70 : code = 70
  · have hsets : SetsLed k.toKeyboard code := .inr (.inl h70)
    simp only [if_pos h70, if_pos hsets]
    rw [h70]
    rfl
  rw [if_neg h70]
  by_cases h69 : code = 69 ∧ k.gather.modifiers.contains .ctrlLeft = false
  · have hsets : SetsLed k.toKeyboard code := .inr (.inr h69)
    simp only [if_pos h69, if_pos hsets]
    rw [h69.1]
    simp [Keyboard.decodeMake, h69.2, Wired.toggleLock, Keyboard.toggleLock, Wired.setLed]
  · have hnot : ¬ SetsLed k.toKeyboard code := fun h => h.elim h58 fun h => h.elim h70 h69
    simp only [if_neg h69, if_neg hnot]

/-- What a byte sends to the keyboard. -/
theorem decodeByte_wired (k : Wired) (b : UInt8) :
    k.decodeByte b = (k.toKeyboard.decodeByte b).map fun r =>
      (⟨r.1,if SetsLed k.toKeyboard b then k.sent ++ [SET_LED,ledBits r.1.leds] else k.sent⟩,r.2) := by
  rw [Wired.decodeByte,Keyboard.decodeByte]
  by_cases hpre : b = PREFIX1 ∨ b = PREFIX2
  · have hnot : ¬ SetsLed k.toKeyboard b := by
      rcases hpre with rfl | rfl
      · rintro (h | h | ⟨h,-⟩) <;> exact absurd h (by decide)
      · rintro (h | h | ⟨h,-⟩) <;> exact absurd h (by decide)
    simp only [if_pos hpre, if_neg hnot]
    rfl
  simp only [if_neg hpre]
  by_cases hbreak : b &&& BREAK_BIT = 0
  · simp only [ne_eq, hbreak, not_true_eq_false, if_false]
    exact decodeMake_wired _ _ _
  · have hnot : ¬ SetsLed k.toKeyboard b := by
      rintro (rfl | rfl | ⟨rfl,-⟩) <;> exact hbreak (by decide)
    simp only [ne_eq, hbreak, not_false_eq_true, if_true, if_neg hnot]

/-- Such a byte completes no event. -/
theorem decodeByte_setsLed {k : Keyboard} {b : UInt8} (h : SetsLed k b) : ∃ k', k.decodeByte b = some (k',false) := by
  apply decodeByte_of_not_completes
  rintro ⟨hother,hnum⟩
  rcases h with rfl | rfl | ⟨rfl,hctrl⟩
  · exact hother (by decide)
  · exact hother (by decide)
  · rw [hnum (by decide)] at hctrl
    cases hctrl

namespace Port

/-- Where the handler stands: between interrupts, or in `set_led` before its command, its first and its second
answer. -/
inductive Phase where
  | idle
  | command
  | commandAnswer
  | parameterAnswer
  deriving DecidableEq

/-- The driver and its buffer, and the controller: the byte on its way to the keyboard, what the keyboard has received
and how much of it is still to be acknowledged, and the bytes that wait for the kernel, those of the mouse marked.
`consumed` are the bytes that were decoded, `popped` the events that were read and `lost` counts those that were
discarded. -/
structure State (Q : Type) where
  keyboard : Keyboard
  buffer : Q
  phase : Phase
  input : Option UInt8
  received : List UInt8
  answers : Nat
  output : List (UInt8 × Bool)
  consumed : List UInt8
  popped : List KeyEvent
  lost : Nat
  panicked : Bool

inductive Label where
  | scan (b : UInt8)
  | mouse (b : UInt8)
  | accept
  | ack
  | interrupt
  | proceed
  | pop

namespace State
variable {Q : Type} (S : BoundedQueue Q KeyEvent) (s : State Q)

/-- `decode_byte` up to its handshake, and what becomes of a complete event: it is lost if the queue does not take
it. -/
def decode (code : UInt8) : State Q :=
  match s.keyboard.decodeByte code with
  | none => { s with panicked := true }
  | some (keyboard,true) =>
    match KeyEventQueue.pushKeyEvent S s.buffer keyboard.gather with
    | none => { s with panicked := true }
    | some buffer => { s with
        keyboard, buffer, consumed := s.consumed ++ [code]
        lost := if (S.tryEnqueue s.buffer keyboard.gather).1 then s.lost else s.lost + 1 }
  | some (keyboard,false) => { s with
      keyboard := keyboard, consumed := s.consumed ++ [code]
      phase := if SetsLed s.keyboard code then .command else .idle }

/-- The handler: `try_read_next_byte`. -/
def trigger : State Q :=
  match s.output with
  | [] => s
  | (code,auxiliary) :: output =>
    if auxiliary then { s with output := output } else decode S { s with output := output } code

/-- `set_led` goes on, or waits for the controller. -/
def proceed : State Q :=
  match s.phase with
  | .idle => s
  | .command => if s.input.isNone then { s with input := some SET_LED, phase := .commandAnswer } else s
  | .commandAnswer =>
    match s.output with
    | [] => s
    | (answer,_) :: output =>
      if answer = ACK then
        { s with output := output, input := some (ledBits s.keyboard.leds), phase := .parameterAnswer }
      else { s with panicked := true }
  | .parameterAnswer =>
    match s.output with
    | [] => s
    | (answer,_) :: output =>
      if answer = ACK then { s with output := output, phase := .idle } else { s with panicked := true }

/-- The devices go on at any time, the kernel as long as it has not panicked; handlers do not nest. -/
def step : Label → Option (State Q)
  | .scan b => some { s with output := s.output ++ [(b,false)] }
  | .mouse b => some { s with output := s.output ++ [(b,true)] }
  | .accept => s.input.map fun b => { s with input := none, received := s.received ++ [b], answers := s.answers + 1 }
  | .ack =>
    if 0 < s.answers then some { s with output := s.output ++ [(ACK,false)], answers := s.answers - 1 } else none
  | .interrupt => if s.panicked = false ∧ s.phase = .idle then some (s.trigger S) else none
  | .proceed => if s.panicked = false ∧ s.phase ≠ .idle then some s.proceed else none
  | .pop =>
    if s.panicked = false ∧ s.phase = .idle then
      match KeyEventQueue.popKeyEvent S s.buffer with
      | none => some { s with panicked := true }
      | some (none,buffer) => some { s with buffer }
      | some (some key,buffer) => some { s with buffer, popped := s.popped ++ [key] }
    else none

end State

section
variable {Q : Type} (S : BoundedQueue Q KeyEvent)

def init : State Q := ⟨Keyboard.new,KeyEventQueue.new S,.idle,none,[],0,[],[],[],0,false⟩

def system : System (State Q) Label where
  init s := s = init S
  step s l s' := s.step S l = some s'

end

variable {Q : Type}

/-- Scan codes are in the tables, and while the LEDs are set no other byte comes in or waits. -/
def Calm (s : State Q) : Label → Prop
  | .scan b => InTables b ∧ s.phase = .idle
  | .mouse _ => s.phase = .idle
  | .interrupt => ∀ b rest, s.output = (b,false) :: rest → SetsLed s.keyboard b → rest = []
  | _ => True

/-- The driver without its port has sent the bytes that the keyboard has received, and those that are missing. -/
def Expects (s : State Q) (missing : List UInt8) : Prop :=
  Wired.new.decodeBytes s.consumed = some ⟨s.keyboard,s.received ++ missing⟩

/-- The stages of the handshake. -/
inductive Handshake (s : State Q) : Prop where
  | idle (hp : s.phase = .idle) (hi : s.input = none) (ha : s.answers = 0)
      (ht : ∀ e ∈ s.output, e.2 = false → InTables e.1) (he : Expects s [])
  | command (hp : s.phase = .command) (hi : s.input = none) (ha : s.answers = 0) (ho : s.output = [])
      (he : Expects s [SET_LED,ledBits s.keyboard.leds])
  | commandSent (hp : s.phase = .commandAnswer) (hi : s.input = some SET_LED) (ha : s.answers = 0) (ho : s.output = [])
      (he : Expects s [SET_LED,ledBits s.keyboard.leds])
  | commandTaken (hp : s.phase = .commandAnswer) (hi : s.input = none) (ha : s.answers = 1) (ho : s.output = [])
      (he : Expects s [ledBits s.keyboard.leds])
  | commandAcked (hp : s.phase = .commandAnswer) (hi : s.input = none) (ha : s.answers = 0)
      (ho : s.output = [(ACK,false)]) (he : Expects s [ledBits s.keyboard.leds])
  | parameterSent (hp : s.phase = .parameterAnswer) (hi : s.input = some (ledBits s.keyboard.leds))
      (ha : s.answers = 0) (ho : s.output = []) (he : Expects s [ledBits s.keyboard.leds])
  | parameterTaken (hp : s.phase = .parameterAnswer) (hi : s.input = none) (ha : s.answers = 1) (ho : s.output = [])
      (he : Expects s [])
  | parameterAcked (hp : s.phase = .parameterAnswer) (hi : s.input = none) (ha : s.answers = 0)
      (ho : s.output = [(ACK,false)]) (he : Expects s [])

/-- The handshake has nothing to do with the readers. -/
theorem Handshake.congr {s s' : State Q} (h : Handshake s) (hp : s'.phase = s.phase) (hi : s'.input = s.input)
    (ha : s'.answers = s.answers) (ho : s'.output = s.output) (hc : s'.consumed = s.consumed)
    (hk : s'.keyboard = s.keyboard) (hr : s'.received = s.received) : Handshake s' := by
  have hexpects : ∀ {missing}, Expects s missing → Expects s' missing := by
    intro missing he
    rw [Expects,hc,hk,hr]
    exact he
  cases h with
  | idle h1 h2 h3 h4 h5 =>
    rw [← hp] at h1
    rw [← hi] at h2
    rw [← ha] at h3
    rw [← ho] at h4
    exact .idle h1 h2 h3 h4 (hexpects h5)
  | command h1 h2 h3 h4 h5 =>
    rw [← hk] at h5
    exact .command (hp.trans h1) (hi.trans h2) (ha.trans h3) (ho.trans h4) (hexpects h5)
  | commandSent h1 h2 h3 h4 h5 =>
    rw [← hk] at h5
    exact .commandSent (hp.trans h1) (hi.trans h2) (ha.trans h3) (ho.trans h4) (hexpects h5)
  | commandTaken h1 h2 h3 h4 h5 =>
    rw [← hk] at h5
    exact .commandTaken (hp.trans h1) (hi.trans h2) (ha.trans h3) (ho.trans h4) (hexpects h5)
  | commandAcked h1 h2 h3 h4 h5 =>
    rw [← hk] at h5
    exact .commandAcked (hp.trans h1) (hi.trans h2) (ha.trans h3) (ho.trans h4) (hexpects h5)
  | parameterSent h1 h2 h3 h4 h5 =>
    rw [← hk] at h2 h5
    exact .parameterSent (hp.trans h1) (hi.trans h2) (ha.trans h3) (ho.trans h4) (hexpects h5)
  | parameterTaken h1 h2 h3 h4 h5 =>
    exact .parameterTaken (hp.trans h1) (hi.trans h2) (ha.trans h3) (ho.trans h4) (hexpects h5)
  | parameterAcked h1 h2 h3 h4 h5 =>
    exact .parameterAcked (hp.trans h1) (hi.trans h2) (ha.trans h3) (ho.trans h4) (hexpects h5)

/-- The events of the bytes that were decoded are read, wait or are lost, in their order. -/
structure Delivers (Holds : Q → List KeyEvent → Prop) (s : State Q) (waiting : List KeyEvent) : Prop where
  decoded : Keyboard.new.decodeBytes s.consumed = some s.keyboard
  holds : Holds s.buffer waiting
  kept : (s.popped ++ waiting).Sublist (Keyboard.new.eventsOf s.consumed)
  counted : (s.popped ++ waiting).length + s.lost = (Keyboard.new.eventsOf s.consumed).length
  bounded : waiting.length ≤ KeyEventQueue.capacity

structure Inv (Holds : Q → List KeyEvent → Prop) (s : State Q) : Prop where
  handshake : Handshake s
  delivers : ∃ waiting, Delivers Holds s waiting
  calm : s.panicked = false

variable {S : BoundedQueue Q KeyEvent} {Holds : Q → List KeyEvent → Prop} {s s' : State Q} {l : Label}
  {waiting : List KeyEvent}

private theorem inv_init (hS : S.Fifo KeyEventQueue.capacity Holds) : Inv Holds (init S) :=
  ⟨.idle rfl rfl rfl (by intro e he; cases he) rfl,⟨[],rfl,hS.queue,.slnil,rfl,Nat.zero_le _⟩,rfl⟩

private theorem expects_received {missing : List UInt8} {b : UInt8} (h : Expects s (b :: missing))
    (hc : s'.consumed = s.consumed) (hk : s'.keyboard = s.keyboard) (hr : s'.received = s.received ++ [b]) :
    Expects s' missing := by
  rw [Expects,hc,hk,hr,List.append_assoc]
  exact h

private theorem delivers_congr (h : Delivers Holds s waiting) (hc : s'.consumed = s.consumed)
    (hk : s'.keyboard = s.keyboard) (hb : s'.buffer = s.buffer) (hp : s'.popped = s.popped) (hl : s'.lost = s.lost) :
    Delivers Holds s' waiting := by
  obtain ⟨h1,h2,h3,h4,h5⟩ := h
  rw [← hc] at h1 h3 h4
  rw [← hb] at h2
  rw [← hp] at h3 h4
  rw [← hl] at h4
  rw [← hk] at h1
  exact ⟨h1,h2,h3,h4,h5⟩

/-- The driver decodes a byte as it would without its port. -/
private theorem expects_decode (h : Expects s []) {b : UInt8} {keyboard : Keyboard} {flag : Bool}
    (hb : s.keyboard.decodeByte b = some (keyboard,flag)) (hc : s'.consumed = s.consumed ++ [b])
    (hk : s'.keyboard = keyboard) (hr : s'.received = s.received) :
    Expects s' (if SetsLed s.keyboard b then [SET_LED,ledBits keyboard.leds] else []) := by
  rw [Expects,List.append_nil] at h
  have hstep := decodeByte_wired ⟨s.keyboard,s.received⟩ b
  rw [hb] at hstep
  rw [Expects,hc,hk,hr,Wired.decodeBytes,List.foldlM_append]
  rw [Wired.decodeBytes] at h
  rw [h]
  simp only [List.foldlM_cons, List.foldlM_nil, Option.bind_eq_bind, Option.bind_some, hstep, Option.map_some]
  split
  · rfl
  · rw [List.append_nil]
    rfl

private theorem eventsOf_concat (h : Delivers Holds s waiting) {b : UInt8} {keyboard : Keyboard} {flag : Bool}
    (hb : s.keyboard.decodeByte b = some (keyboard,flag)) :
    Keyboard.new.decodeBytes (s.consumed ++ [b]) = some keyboard ∧
      Keyboard.new.eventsOf (s.consumed ++ [b]) =
        Keyboard.new.eventsOf s.consumed ++ if flag then [keyboard.gather] else [] := by
  have hd := h.decoded
  constructor
  · rw [decodeBytes] at hd ⊢
    rw [List.foldlM_append,hd]
    simp only [List.foldlM_cons, List.foldlM_nil, Option.bind_eq_bind, Option.bind_some, hb, Option.map_some]
    rfl
  · rw [eventsOf_append hd,eventsOf_step hb]
    exact congrArg _ (List.append_nil _)

private theorem delivers_event (hS : S.Fifo KeyEventQueue.capacity Holds) (h : Delivers Holds s waiting) {b : UInt8}
    {keyboard : Keyboard} (hb : s.keyboard.decodeByte b = some (keyboard,true)) :
    ∃ waiting, Delivers Holds { s with
      keyboard, buffer := (S.tryEnqueue s.buffer keyboard.gather).2, consumed := s.consumed ++ [b]
      lost := if (S.tryEnqueue s.buffer keyboard.gather).1 then s.lost else s.lost + 1 } waiting := by
  obtain ⟨hdecoded,hevents⟩ := eventsOf_concat h hb
  have hcounted := h.counted
  rw [if_pos rfl] at hevents
  by_cases hroom : waiting.length < KeyEventQueue.capacity
  · obtain ⟨haccept,hholds⟩ := hS.enqueue keyboard.gather h.holds hroom
    rw [if_pos haccept]
    refine ⟨_,hdecoded,hholds,?_,?_,?_⟩
    · rw [hevents,← List.append_assoc]
      exact h.kept.append_right _
    · rw [hevents,List.length_append]
      simp only [List.length_append, List.length_singleton] at hcounted ⊢
      omega
    · rw [List.length_append]
      exact hroom
  · obtain ⟨hrefuse,hholds⟩ := hS.full keyboard.gather h.holds (Nat.le_of_not_lt hroom)
    rw [if_neg (by rw [hrefuse]; exact Bool.false_ne_true)]
    refine ⟨_,hdecoded,hholds,?_,?_,h.bounded⟩
    · rw [hevents]
      exact h.kept.trans (List.sublist_append_left _ _)
    · rw [hevents,List.length_append]
      simp only [List.length_append, List.length_singleton] at hcounted ⊢
      omega

private theorem delivers_quiet (h : Delivers Holds s waiting) {b : UInt8} {keyboard : Keyboard} {phase : Phase}
    (hb : s.keyboard.decodeByte b = some (keyboard,false)) :
    Delivers Holds { s with keyboard := keyboard, consumed := s.consumed ++ [b], phase := phase } waiting := by
  obtain ⟨hdecoded,hevents⟩ := eventsOf_concat h hb
  rw [if_neg Bool.false_ne_true,List.append_nil] at hevents
  refine ⟨hdecoded,h.holds,?_,?_,h.bounded⟩
  · rw [hevents]
    exact h.kept
  · rw [hevents]
    exact h.counted

private theorem delivers_pop {key : KeyEvent} {buffer : Q} (h : Delivers Holds s (key :: waiting))
    (hb : Holds buffer waiting) : Delivers Holds { s with buffer, popped := s.popped ++ [key] } waiting := by
  have happend : s.popped ++ [key] ++ waiting = s.popped ++ key :: waiting := by
    rw [List.append_assoc]
    rfl
  refine ⟨h.decoded,hb,?_,?_,Nat.le_of_succ_le h.bounded⟩
  · rw [happend]
    exact h.kept
  · rw [happend]
    exact h.counted

private theorem decode_event (hS : S.Fifo KeyEventQueue.capacity Holds) (h : Holds s.buffer waiting) {b : UInt8}
    {keyboard : Keyboard} (hb : s.keyboard.decodeByte b = some (keyboard,true)) :
    s.decode S b = { s with
      keyboard, buffer := (S.tryEnqueue s.buffer keyboard.gather).2, consumed := s.consumed ++ [b]
      lost := if (S.tryEnqueue s.buffer keyboard.gather).1 then s.lost else s.lost + 1 } := by
  simp only [State.decode, hb, (KeyEventQueue.pushKeyEvent_eq hS h keyboard.gather).1]

private theorem decode_quiet {b : UInt8} {keyboard : Keyboard} (hb : s.keyboard.decodeByte b = some (keyboard,false)) :
    s.decode S b = { s with
      keyboard := keyboard, consumed := s.consumed ++ [b]
      phase := if SetsLed s.keyboard b then .command else .idle } := by
  simp only [State.decode, hb]

/-- Between interrupts the handler takes the next byte. -/
private theorem inv_trigger (hS : S.Fifo KeyEventQueue.capacity Holds) (hi : Inv Holds s) (hidle : s.phase = .idle)
    (hcalm : ∀ b rest, s.output = (b,false) :: rest → SetsLed s.keyboard b → rest = []) :
    Inv Holds (s.trigger S) := by
  obtain ⟨hin,hans,htab,hexp⟩ : s.input = none ∧ s.answers = 0 ∧ (∀ e ∈ s.output, e.2 = false → InTables e.1) ∧
      Expects s [] := by
    cases hi.handshake with
    | idle _ hin hans htab hexp => exact ⟨hin,hans,htab,hexp⟩
    | command hp | commandSent hp | commandTaken hp | commandAcked hp | parameterSent hp | parameterTaken hp
    | parameterAcked hp =>
      rw [hidle] at hp
      cases hp
  obtain ⟨waiting,hdelivers⟩ := hi.delivers
  rw [State.trigger]
  cases hout : s.output with
  | nil => exact hi
  | cons e output =>
    obtain ⟨b,auxiliary⟩ := e
    have hrest : ∀ e ∈ output, e.2 = false → InTables e.1 := by
      intro e he
      exact htab e (by rw [hout]; exact List.mem_cons_of_mem _ he)
    cases auxiliary with
    | true =>
      simp only [if_true]
      exact ⟨.idle hidle hin hans hrest hexp,⟨waiting,delivers_congr hdelivers rfl rfl rfl rfl rfl⟩,hi.calm⟩
    | false =>
      have hin' : InTables b := htab (b,false) (by rw [hout]; exact List.mem_cons_self) rfl
      obtain ⟨⟨keyboard,flag⟩,hb⟩ := Option.isSome_iff_exists.mp ((isSome_decodeByte s.keyboard b).mpr hin')
      simp only [Bool.false_eq_true, if_false]
      have hdelivers : Delivers Holds { s with output := output } waiting := delivers_congr hdelivers rfl rfl rfl rfl rfl
      cases flag with
      | true =>
        have hnot : ¬ SetsLed s.keyboard b := by
          intro hsets
          obtain ⟨k',hquiet⟩ := decodeByte_setsLed hsets
          rw [hb] at hquiet
          cases hquiet
        rw [decode_event (s := { s with output := output }) hS hdelivers.holds hb]
        refine ⟨.idle hidle hin hans hrest ?_,delivers_event hS hdelivers hb,hi.calm⟩
        have h : Expects { s with keyboard := keyboard, consumed := s.consumed ++ [b] }
            (if SetsLed s.keyboard b then [SET_LED,ledBits keyboard.leds] else []) :=
          expects_decode hexp hb rfl rfl rfl
        rw [if_neg hnot] at h
        exact h
      | false =>
        rw [decode_quiet (s := { s with output := output }) hb]
        refine ⟨?_,⟨waiting,delivers_quiet hdelivers hb⟩,hi.calm⟩
        have h : Expects { s with keyboard := keyboard, consumed := s.consumed ++ [b] }
            (if SetsLed s.keyboard b then [SET_LED,ledBits keyboard.leds] else []) :=
          expects_decode hexp hb rfl rfl rfl
        by_cases hsets : SetsLed s.keyboard b
        · rw [if_pos hsets] at h
          exact .command (if_pos hsets) hin hans (hcalm b output hout hsets) h
        · rw [if_neg hsets] at h
          exact .idle (if_neg hsets) hin hans hrest h

/-- The handshake goes on with the answers it expects. -/
private theorem inv_proceed (hi : Inv Holds s) : Inv Holds s.proceed := by
  obtain ⟨waiting,hdelivers⟩ := hi.delivers
  rw [State.proceed]
  cases hi.handshake with
  | idle hp =>
    rw [hp]
    exact hi
  | command hp hin hans hout hexp =>
    rw [hp,hin]
    exact ⟨.commandSent rfl rfl hans hout hexp,⟨waiting,delivers_congr hdelivers rfl rfl rfl rfl rfl⟩,hi.calm⟩
  | commandSent hp _ _ hout | commandTaken hp _ _ hout =>
    rw [hp,hout]
    exact hi
  | commandAcked hp hin hans hout hexp =>
    rw [hp,hout]
    simp only [if_true]
    exact ⟨.parameterSent rfl rfl hans rfl hexp,⟨waiting,delivers_congr hdelivers rfl rfl rfl rfl rfl⟩,hi.calm⟩
  | parameterSent hp _ _ hout | parameterTaken hp _ _ hout =>
    rw [hp,hout]
    exact hi
  | parameterAcked hp hin hans hout hexp =>
    rw [hp,hout]
    simp only [if_true]
    exact ⟨.idle rfl hin hans nofun hexp,⟨waiting,delivers_congr hdelivers rfl rfl rfl rfl rfl⟩,hi.calm⟩

/-- The keyboard takes a byte from the controller. -/
private theorem inv_accept (hi : Inv Holds s) {b : UInt8} (hb : s.input = some b) :
    Inv Holds { s with input := none, received := s.received ++ [b], answers := s.answers + 1 } := by
  obtain ⟨waiting,hdelivers⟩ := hi.delivers
  refine ⟨?_,⟨waiting,delivers_congr hdelivers rfl rfl rfl rfl rfl⟩,hi.calm⟩
  cases hi.handshake with
  | idle _ hin | command _ hin | commandTaken _ hin | commandAcked _ hin | parameterTaken _ hin
  | parameterAcked _ hin =>
    rw [hin] at hb
    cases hb
  | commandSent hp hin hans hout hexp =>
    obtain rfl := Option.some.inj (hin.symm.trans hb)
    exact .commandTaken hp rfl (by rw [hans]) hout (expects_received hexp rfl rfl rfl)
  | parameterSent hp hin hans hout hexp =>
    obtain rfl := Option.some.inj (hin.symm.trans hb)
    exact .parameterTaken hp rfl (by rw [hans]) hout (expects_received hexp rfl rfl rfl)

/-- The keyboard acknowledges a byte. -/
private theorem inv_ack (hi : Inv Holds s) (hpos : 0 < s.answers) :
    Inv Holds { s with output := s.output ++ [(ACK,false)], answers := s.answers - 1 } := by
  obtain ⟨waiting,hdelivers⟩ := hi.delivers
  refine ⟨?_,⟨waiting,delivers_congr hdelivers rfl rfl rfl rfl rfl⟩,hi.calm⟩
  cases hi.handshake with
  | idle _ _ hans | command _ _ hans | commandSent _ _ hans | commandAcked _ _ hans | parameterSent _ _ hans
  | parameterAcked _ _ hans =>
    rw [hans] at hpos
    exact absurd hpos (Nat.lt_irrefl 0)
  | commandTaken hp hin hans hout hexp => exact .commandAcked hp hin (by rw [hans]) (by rw [hout]; rfl) hexp
  | parameterTaken hp hin hans hout hexp => exact .parameterAcked hp hin (by rw [hans]) (by rw [hout]; rfl) hexp

/-- A byte comes in between interrupts. -/
private theorem inv_arrives (hi : Inv Holds s) (hidle : s.phase = .idle) {e : UInt8 × Bool} (he : e.2 = false → InTables e.1) :
    Inv Holds { s with output := s.output ++ [e] } := by
  obtain ⟨waiting,hdelivers⟩ := hi.delivers
  refine ⟨?_,⟨waiting,delivers_congr hdelivers rfl rfl rfl rfl rfl⟩,hi.calm⟩
  cases hi.handshake with
  | idle hp hin hans htab hexp =>
    refine .idle hp hin hans ?_ hexp
    intro e' he'
    rcases List.mem_append.mp he' with he' | he'
    · exact htab e' he'
    · obtain rfl := List.mem_singleton.mp he'
      exact he
  | command hp | commandSent hp | commandTaken hp | commandAcked hp | parameterSent hp | parameterTaken hp
  | parameterAcked hp =>
    rw [hidle] at hp
    cases hp

/-- A reader takes the oldest event, if there is one. -/
private theorem inv_pop (hS : S.Fifo KeyEventQueue.capacity Holds) (hi : Inv Holds s)
    (hs : s.step S .pop = some s') : Inv Holds s' := by
  obtain ⟨waiting,hdelivers⟩ := hi.delivers
  rw [State.step] at hs
  split at hs
  · cases waiting with
    | nil =>
      obtain ⟨buffer,hpop,hholds⟩ := KeyEventQueue.popKeyEvent_empty hS hdelivers.holds
      rw [hpop] at hs
      cases hs
      refine ⟨hi.handshake.congr rfl rfl rfl rfl rfl rfl rfl,⟨[],?_⟩,hi.calm⟩
      exact ⟨hdelivers.decoded,hholds,hdelivers.kept,hdelivers.counted,hdelivers.bounded⟩
    | cons key waiting =>
      obtain ⟨buffer,hpop,hholds⟩ := KeyEventQueue.popKeyEvent_cons hS hdelivers.holds
      rw [hpop] at hs
      cases hs
      exact ⟨hi.handshake.congr rfl rfl rfl rfl rfl rfl rfl,⟨waiting,delivers_pop hdelivers hholds⟩,hi.calm⟩
  · cases hs

theorem inv_step (hS : S.Fifo KeyEventQueue.capacity Holds) (hi : Inv Holds s) (hc : Calm s l)
    (hs : s.step S l = some s') : Inv Holds s' := by
  cases l with
  | scan b =>
    cases hs
    exact inv_arrives hi hc.2 fun _ => hc.1
  | mouse b =>
    cases hs
    exact inv_arrives hi hc nofun
  | accept =>
    obtain ⟨b,hb,rfl⟩ := Option.map_eq_some_iff.mp hs
    exact inv_accept hi hb
  | ack =>
    rw [State.step] at hs
    split at hs
    · rename_i hpos
      cases hs
      exact inv_ack hi hpos
    · cases hs
  | interrupt =>
    rw [State.step] at hs
    split at hs
    · rename_i h
      cases hs
      exact inv_trigger hS hi h.2 hc
    · cases hs
  | proceed =>
    rw [State.step] at hs
    split at hs
    · cases hs
      exact inv_proceed hi
    · cases hs
  | pop => exact inv_pop hS hi hs

theorem inv_reachable (hS : S.Fifo KeyEventQueue.capacity Holds) (h : ((system S).restrict Calm).Reachable s) :
    Inv Holds s := by
  apply h.invariant
  · rintro s rfl
    exact inv_init hS
  · intro s l s' hi hs
    exact inv_step hS hi hs.1 hs.2

/-- Only a full queue loses an event, and only one at a time. -/
private theorem lost_decode (hS : S.Fifo KeyEventQueue.capacity Holds) (h : Holds s.buffer waiting) (b : UInt8)
    (hlost : (s.decode S b).lost ≠ s.lost) :
    KeyEventQueue.capacity ≤ waiting.length ∧ (s.decode S b).lost = s.lost + 1 := by
  cases hb : s.keyboard.decodeByte b with
  | none =>
    simp only [State.decode, hb] at hlost
    exact absurd rfl hlost
  | some r =>
    obtain ⟨keyboard,flag⟩ := r
    cases flag with
    | false =>
      rw [decode_quiet hb] at hlost
      exact absurd rfl hlost
    | true =>
      rw [decode_event hS h hb] at hlost ⊢
      by_cases hroom : waiting.length < KeyEventQueue.capacity
      · exact absurd (if_pos (hS.enqueue keyboard.gather h hroom).1) hlost
      · have hfull := Nat.le_of_not_lt hroom
        have hrefuse := (hS.full keyboard.gather h hfull).1
        exact ⟨hfull,if_neg (by rw [hrefuse]; exact Bool.false_ne_true)⟩

private theorem lost_step (hS : S.Fifo KeyEventQueue.capacity Holds) (h : Holds s.buffer waiting)
    (hs : s.step S l = some s') (hlost : s'.lost ≠ s.lost) :
    KeyEventQueue.capacity ≤ waiting.length ∧ s'.lost = s.lost + 1 := by
  cases l with
  | scan b | mouse b =>
    cases hs
    exact absurd rfl hlost
  | accept =>
    obtain ⟨b,hb,rfl⟩ := Option.map_eq_some_iff.mp hs
    exact absurd rfl hlost
  | ack =>
    rw [State.step] at hs
    split at hs <;> cases hs
    exact absurd rfl hlost
  | interrupt =>
    rw [State.step] at hs
    split at hs
    · cases hs
      rw [State.trigger] at hlost ⊢
      split at hlost
      · exact absurd rfl hlost
      · rename_i code auxiliary output hout
        cases auxiliary with
        | true => exact absurd rfl hlost
        | false => exact lost_decode (s := { s with output := output }) hS h code hlost
    · cases hs
  | proceed =>
    rw [State.step] at hs
    split at hs
    · cases hs
      rw [State.proceed] at hlost
      split at hlost
      · exact absurd rfl hlost
      · split at hlost <;> exact absurd rfl hlost
      all_goals
        split at hlost
        · exact absurd rfl hlost
        · split at hlost <;> exact absurd rfl hlost
    · cases hs
  | pop =>
    rw [State.step] at hs
    split at hs
    · split at hs <;> cases hs
      all_goals exact absurd rfl hlost
    · cases hs

/-- As long as no other byte comes in or waits while the LEDs are set, the handler never panics over an answer, and
between interrupts the driver stands where it would without a port, with every LED command received in whole and in
order. The events of the decoded bytes are read, wait or are lost in their order. An event is lost only by a step at
which 128 of them wait. A byte that waits behind the make code of a lock, and is not an acknowledgement, makes the
kernel panic. -/
theorem handshake_keeps_decoding (hS : S.Fifo KeyEventQueue.capacity Holds)
    (hs : ((system S).restrict Calm).Reachable s) :
    s.panicked = false ∧
    (s.phase = .idle → Wired.new.decodeBytes s.consumed = some ⟨s.keyboard,s.received⟩) ∧
    (∃ waiting, Holds s.buffer waiting ∧ (s.popped ++ waiting).Sublist (Keyboard.new.eventsOf s.consumed) ∧
      (s.popped ++ waiting).length + s.lost = (Keyboard.new.eventsOf s.consumed).length ∧
      ∀ l s', s.step S l = some s' → s'.lost ≠ s.lost → waiting.length = 128 ∧ s'.lost = s.lost + 1) ∧
    ∀ b e rest, s.phase = .idle → s.output = (b,false) :: e :: rest → SetsLed s.keyboard b → e.1 ≠ ACK →
      ∃ s₁ s₂ s₃, s.step S .interrupt = some s₁ ∧ s₁.step S .proceed = some s₂ ∧ s₂.step S .proceed = some s₃ ∧
        s₃.panicked = true := by
  have hi := inv_reachable hS hs
  obtain ⟨waiting,hdelivers⟩ := hi.delivers
  refine ⟨hi.calm,?_,⟨waiting,hdelivers.holds,hdelivers.kept,hdelivers.counted,?_⟩,?_⟩
  · intro hidle
    cases hi.handshake with
    | idle _ _ _ _ hexp =>
      rw [Expects,List.append_nil] at hexp
      exact hexp
    | command hp | commandSent hp | commandTaken hp | commandAcked hp | parameterSent hp | parameterTaken hp
    | parameterAcked hp =>
      rw [hidle] at hp
      cases hp
  · intro l s' hstep hlost
    obtain ⟨hfull,hone⟩ := lost_step hS hdelivers.holds hstep hlost
    exact ⟨Nat.le_antisymm hdelivers.bounded hfull,hone⟩
  · intro b e rest hidle hout hsets hne
    obtain ⟨keyboard,hb⟩ := decodeByte_setsLed hsets
    have hin : s.input = none := by
      cases hi.handshake with
      | idle _ hin => exact hin
      | command hp | commandSent hp | commandTaken hp | commandAcked hp | parameterSent hp | parameterTaken hp
      | parameterAcked hp =>
        rw [hidle] at hp
        cases hp
    have htrigger : s.trigger S = { s with
        output := e :: rest, keyboard := keyboard, consumed := s.consumed ++ [b], phase := .command } := by
      rw [State.trigger,hout]
      simp only [Bool.false_eq_true, if_false, State.decode, hb, if_pos hsets]
    have hcalm : s.panicked = false := hi.calm
    have h₁ : s.step S .interrupt = some (s.trigger S) := if_pos ⟨hcalm,hidle⟩
    rw [htrigger] at h₁
    refine ⟨_,_,_,h₁,if_pos ⟨hcalm,Phase.noConfusion⟩,if_pos ⟨?_,?_⟩,?_⟩
    all_goals simp [State.proceed, hin, hcalm, hne]

private theorem goes (h : ((system S).restrict Calm).Reachable s) (l : Label) (hc : Calm s l)
    (hs : s.step S l = some s') : ((system S).restrict Calm).Reachable s' := h.step ⟨hc,hs⟩

/-- A queue of the crate for 128 events. -/
private def events : BoundedQueue (Nat × List KeyEvent) KeyEvent := .list

private theorem fifo_events : events.Fifo KeyEventQueue.capacity fun q xs => q = (128,xs) := BoundedQueue.fifo_list 128

/-- CapsLock is pressed, and the keyboard answers in time. -/
theorem handshake_keeps_decoding_caps : ∃ s : State (Nat × List KeyEvent),
    ((system events).restrict Calm).Reachable s ∧ s.panicked = false ∧
      Wired.new.decodeBytes [0x3a] = some ⟨s.keyboard,[0xed,4]⟩ := by
  have h₀ : ((system events).restrict Calm).Reachable (init events) := .of_init rfl
  have h₁ := goes h₀ (.scan 0x3a) ⟨.inr (.inr (by decide)),rfl⟩ rfl
  have h₂ := goes h₁ .interrupt (by intro b rest h _; cases h; rfl) rfl
  have h₃ := goes h₂ .proceed trivial rfl
  have h₄ := goes h₃ .accept trivial rfl
  have h₅ := goes h₄ .ack trivial rfl
  have h₆ := goes h₅ .proceed trivial rfl
  have h₇ := goes h₆ .accept trivial rfl
  have h₈ := goes h₇ .ack trivial rfl
  have h₉ := goes h₈ .proceed trivial rfl
  have h := handshake_keeps_decoding fifo_events h₉
  exact ⟨_,h₉,h.1,h.2.1 rfl⟩

/-- The keyboard sends one more byte, which the kernel decodes, and a reader takes the event. -/
private theorem served (hS : S.Fifo KeyEventQueue.capacity Holds) (h : ((system S).restrict Calm).Reachable s)
    (hidle : s.phase = .idle) (hout : s.output = []) (hempty : Holds s.buffer []) {b : UInt8} (hb : InTables b)
    (hnot : b ∉ [58,70,69]) :
    ∃ s', ((system S).restrict Calm).Reachable s' ∧ s'.phase = .idle ∧ s'.output = [] ∧ Holds s'.buffer [] ∧
      s'.consumed = s.consumed ++ [b] ∧ s'.lost = s.lost := by
  have hi := inv_reachable hS h
  have hsets : ¬ SetsLed s.keyboard b := by
    rintro (rfl | rfl | ⟨rfl,-⟩) <;> exact hnot (by decide)
  obtain ⟨⟨keyboard,flag⟩,hdecode⟩ := Option.isSome_iff_exists.mp ((isSome_decodeByte s.keyboard b).mpr hb)
  have hscan : ((system S).restrict Calm).step s (.scan b) { s with output := [(b,false)] } :=
    ⟨⟨hb,hidle⟩,by rw [show [(b,false)] = s.output ++ [(b,false)] by rw [hout]; rfl]; rfl⟩
  have hcalm : Calm { s with output := [(b,false)] } .interrupt := by
    intro b' rest heq hsets'
    cases heq
    rfl
  have hinterrupt : ((system S).restrict Calm).step { s with output := [(b,false)] } .interrupt
      (State.decode S { s with output := [] } b) := ⟨hcalm,if_pos ⟨hi.calm,hidle⟩⟩
  have h₂ := (h.step hscan).step hinterrupt
  cases flag with
  | false =>
    rw [decode_quiet (s := { s with output := [] }) hdecode] at h₂
    exact ⟨_,h₂,if_neg hsets,rfl,hempty,rfl,rfl⟩
  | true =>
    rw [decode_event (s := { s with output := [] }) hS hempty hdecode] at h₂
    have henqueue := hS.enqueue keyboard.gather hempty (by decide)
    obtain ⟨buffer,hpop,hbuffer⟩ := KeyEventQueue.popKeyEvent_cons hS henqueue.2
    have hread : ∀ t : State Q, t.panicked = false ∧ t.phase = .idle →
        t.buffer = (S.tryEnqueue s.buffer keyboard.gather).2 →
        t.step S .pop = some { t with buffer, popped := t.popped ++ [keyboard.gather] } := by
      intro t ht hbuffer
      rw [State.step,if_pos ht,hbuffer,hpop]
    exact ⟨_,goes h₂ .pop trivial (hread _ ⟨hi.calm,hidle⟩ rfl),hidle,rfl,hbuffer,rfl,if_pos henqueue.1⟩

private theorem all_served (hS : S.Fifo KeyEventQueue.capacity Holds) {bytes : List UInt8}
    (hb : ∀ b ∈ bytes, InTables b ∧ b ∉ [58,70,69]) (h : ((system S).restrict Calm).Reachable s)
    (hidle : s.phase = .idle) (hout : s.output = []) (hempty : Holds s.buffer []) :
    ∃ s', ((system S).restrict Calm).Reachable s' ∧ s'.phase = .idle ∧ s'.output = [] ∧ Holds s'.buffer [] ∧
      s'.consumed = s.consumed ++ bytes ∧ s'.lost = s.lost := by
  induction bytes generalizing s with
  | nil => exact ⟨s,h,hidle,hout,hempty,(List.append_nil _).symm,rfl⟩
  | cons b bytes ih =>
    obtain ⟨hin,hnot⟩ := hb b List.mem_cons_self
    obtain ⟨s₁,h₁,hidle₁,hout₁,hempty₁,hconsumed₁,hlost₁⟩ := served hS h hidle hout hempty hin hnot
    obtain ⟨s₂,h₂,hidle₂,hout₂,hempty₂,hconsumed₂,hlost₂⟩ :=
      ih (fun b' hb' => hb b' (List.mem_cons_of_mem _ hb')) h₁ hidle₁ hout₁ hempty₁
    refine ⟨s₂,h₂,hidle₂,hout₂,hempty₂,?_,hlost₂.trans hlost₁⟩
    rw [hconsumed₂,hconsumed₁,List.append_assoc]
    rfl

/-- After a text has been typed, and no event was lost, the characters of the events that were read and those that
`poll_char` reads from now on spell the text, whatever the interrupts, the mouse and the readers did in between, and
then `poll_char` waits. -/
theorem typed_text_read (hS : S.Fifo KeyEventQueue.capacity Holds) (hs : ((system S).restrict Calm).Reachable s)
    {text : List Char} (htext : ∀ c ∈ text, Typeable c) (hconsumed : s.consumed = typed text) (hlost : s.lost = 0) :
    ∃ rest, KeyEventQueue.chars s.popped ++ rest = text ∧ ∀ n, KeyEventQueue.capacity < n →
      ∃ q, KeyEventQueue.pollChars S n rest.length s.buffer = some (rest,q) ∧
        ∃ q', KeyEventQueue.pollChar S q n = .waits q' := by
  obtain ⟨waiting,hdelivers⟩ := (inv_reachable hS hs).delivers
  have hcounted := hdelivers.counted
  have hall : s.popped ++ waiting = Keyboard.new.eventsOf s.consumed := by
    apply hdelivers.kept.eq_of_length
    rw [hlost] at hcounted
    exact hcounted
  obtain ⟨k,-,-,hchars⟩ := typed_spec plain_new htext
  rw [hconsumed] at hall
  rw [← hall,KeyEventQueue.chars_append] at hchars
  refine ⟨KeyEventQueue.chars waiting,hchars,?_⟩
  intro n hn
  exact KeyEventQueue.pollChars_eq hS hdelivers.holds (Nat.lt_of_le_of_lt hdelivers.bounded hn) rfl

private theorem greeting : ∀ c ∈ ['H','i','@'], Typeable c := by
  have hall : (['H','i','@'].all fun c => (NORMAL_TAB ++ SHIFT_TAB ++ ALT_TAB ++ ASC_NUM_TAB).any fun b =>
      decide (b ≠ 0 ∧ KeyEvent.charFromU32 b.toUInt32 = some c)) = true := by decide +kernel
  intro c hc
  obtain ⟨b,hb,h⟩ := List.any_eq_true.mp (List.all_eq_true.mp hall c hc)
  exact ⟨b,hb,of_decide_eq_true h⟩

/-- A greeting that takes the shift key once and the right Alt key once. -/
theorem typed_text_read_sample : ∃ s : State (Nat × List KeyEvent), ((system events).restrict Calm).Reachable s ∧
    s.consumed = typed ['H','i','@'] ∧ ∃ rest, KeyEventQueue.chars s.popped ++ rest = ['H','i','@'] := by
  have hbytes : (typed ['H','i','@']).all (fun b =>
      decide ((b = PREFIX1 ∨ b = PREFIX2 ∨ keyCode b < 92) ∧ b ∉ [58,70,69])) = true := by decide
  have hall : ∀ b ∈ typed ['H','i','@'], InTables b ∧ b ∉ [58,70,69] := by
    intro b hb
    have h := List.all_eq_true.mp hbytes b hb
    exact of_decide_eq_true (p := (b = PREFIX1 ∨ b = PREFIX2 ∨ keyCode b < 92) ∧ b ∉ [58,70,69]) h
  obtain ⟨s,hs,-,-,-,hconsumed,hlost⟩ := all_served (S := events) fifo_events hall (.of_init rfl) rfl rfl rfl
  obtain ⟨rest,hrest,-⟩ := typed_text_read fifo_events hs greeting hconsumed hlost
  exact ⟨s,hs,hconsumed,rest,hrest⟩

end Port

end HeineOS.Keyboard
