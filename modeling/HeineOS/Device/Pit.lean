import HeineOS.Lib.Timer
import Mathlib.Data.List.Forall2
import Mathlib.Tactic.Ring

/-! The timer driver and the speaker, which share one interval timer. -/
namespace HeineOS.Pit
open Lib

def TIMER_FREQUENCY : Nat := 1193182

def NANOSECONDS_PER_TICK : Nat := 1000000000 / TIMER_FREQUENCY

def TIMER_INTERRUPT_INTERVAL_MS : Nat := 1

def SPINNER_CHARS : List Char := ['|','/','-','\\']

/-- Channel 0, both bytes, square wave. -/
def CONTROL_WORD : UInt8 := 0b00110110

/-- The product of milliseconds and nanoseconds is a `u64`; there is no result where it overflows. -/
def setInterruptInterval (pit : Timer) (intervalMs : Nat) : Option Timer :=
  if intervalMs = 0 then some pit
  else if 2^64 ≤ intervalMs * 1000000 then none
  else
    let counter64 := intervalMs * 1000000 / NANOSECONDS_PER_TICK
    let counter := if counter64 = 0 then 1 else if counter64 > 0xffff then 0xffff else counter64
    some (((pit.outbControl CONTROL_WORD).outbData 0 (UInt8.ofNat (counter % 256))).outbData 0
      (UInt8.ofNat (counter / 256)))

/-- What one timer interrupt does: the new time, the character of the spinner, if it changes, and whether the
processor is yielded. -/
structure Tick where
  time : Nat
  spinner : Option Char
  yields : Bool

/-- `trigger` of `TimerISR`, at a system time of `time`. -/
def trigger (intervalMs time : Nat) : Tick where
  time := (time + intervalMs) % 2^64
  spinner := if time % 250 = 0 then SPINNER_CHARS[time / 250 % SPINNER_CHARS.length]? else none
  yields := time % 10 = 0

/-- An interval of up to 54 ms is rounded down to ticks of 838 ns; longer ones are cut to the largest count. -/
theorem setInterruptInterval_spec {pit : Timer} {intervalMs : Nat} (hpos : 0 < intervalMs)
    (hfit : intervalMs * 1000000 < 2^64) :
    ∃ pit', setInterruptInterval pit intervalMs = some pit' ∧ (∀ i, i ≠ 0 → pit' i = pit i) ∧
      (pit' 0).access = .lowHigh ∧ (pit' 0).mode = 3 ∧ (pit' 0).half = none ∧
      (pit' 0).divisor = min (intervalMs * 1000000 / 838) 65535 := by
  have htick : NANOSECONDS_PER_TICK = 838 := by decide
  have hlarge : 0 < intervalMs * 1000000 / 838 := Nat.div_pos (by omega) (by decide)
  have hcounter : (if intervalMs * 1000000 / 838 = 0 then 1
      else if intervalMs * 1000000 / 838 > 0xffff then 0xffff else intervalMs * 1000000 / 838) =
      min (intervalMs * 1000000 / 838) 65535 := by
    rw [if_neg (by omega)]
    split <;> omega
  rw [setInterruptInterval,if_neg (by omega),if_neg (by omega),htick]
  dsimp only
  rw [hcounter]
  generalize hn : min (intervalMs * 1000000 / 838) 65535 = n
  have hself := @Timer.load_self pit CONTROL_WORD (UInt8.ofNat (n % 256)) (UInt8.ofNat (n / 256)) (by decide) (by decide)
  rw [Timer.bytes_eq,Nat.mod_eq_of_lt (show n < 65536 by omega)] at hself
  refine ⟨pit.load CONTROL_WORD (UInt8.ofNat (n % 256)) (UInt8.ofNat (n / 256)),rfl,fun i hi => Timer.load_ne hi,?_⟩
  change Timer.load _ _ _ _ 0 = _ at hself
  have hne : n ≠ 0 := by omega
  rw [hself]
  exact ⟨rfl,rfl,rfl,if_neg hne⟩

end HeineOS.Pit

namespace HeineOS.Speaker
open Lib

def PIT_FREQUENCY : Nat := 1193180

/-- Counter 2, both bytes, square wave. -/
def CONTROL_WORD : UInt8 := 0xb6

/-- The timer and the register of the peripheral interface, whose two lowest bits switch the speaker on. -/
structure Machine where
  pit : Timer
  ppi : UInt8

def on (m : Machine) : Machine := { m with ppi := m.ppi ||| 0b11 }

def off (m : Machine) : Machine := { m with ppi := m.ppi &&& ~~~ 0b11 }

/-- The states in which `play` waits and in which it returns; a frequency of 0 panics. -/
def play (m : Machine) (frequency : Nat) : Option (Machine × Machine) :=
  if frequency = 0 then none
  else
    let counter := PIT_FREQUENCY / frequency
    let pit := ((m.pit.outbControl CONTROL_WORD).outbData 2 (UInt8.ofNat (counter % 256))).outbData 2
      (UInt8.ofNat (counter / 256))
    let sounding := on { m with pit := pit }
    some (sounding,off sounding)

/-- Some tones in turn: the states in which they sound, and the state at the end. -/
def plays : Machine → List Nat → Option (List Machine × Machine)
  | m,[] => some ([],m)
  | m,frequency :: frequencies =>
    match play m frequency with
    | none => none
    | some (sounding,silent) => (plays silent frequencies).map fun (soundings,m') => (sounding :: soundings,m')

variable {m : Machine} {frequency : Nat}

private theorem counter_fits (hf : frequency ≠ 0) :
    (if PIT_FREQUENCY / frequency % 65536 = 0 then 65536 else PIT_FREQUENCY / frequency % 65536) =
      PIT_FREQUENCY / frequency ↔ 19 ≤ frequency ∧ frequency ≤ PIT_FREQUENCY := by
  have hpos : 0 < frequency := Nat.pos_of_ne_zero hf
  have hlow : PIT_FREQUENCY / frequency < 65537 ↔ 19 ≤ frequency := by
    rw [Nat.div_lt_iff_lt_mul hpos,PIT_FREQUENCY]
    omega
  have hhigh : 1 ≤ PIT_FREQUENCY / frequency ↔ frequency ≤ PIT_FREQUENCY := by
    rw [Nat.le_div_iff_mul_le hpos,Nat.one_mul]
  rw [← hlow,← hhigh]
  split <;> omega

/-- The bits of the speaker, and the others. -/
private theorem ppi_bits (ppi : UInt8) : (ppi ||| 0b11) &&& 0b11 = 0b11 ∧ (ppi ||| 0b11) &&& ~~~ 0b11 = ppi &&& ~~~ 0b11 ∧
    (ppi &&& ~~~ 0b11) &&& 0b11 = 0 ∧ (ppi &&& ~~~ 0b11) &&& ~~~ 0b11 = ppi &&& ~~~ 0b11 := by
  have hbits : ∀ x : BitVec 8, (x ||| 3#8) &&& 3#8 = 3#8 ∧ (x ||| 3#8) &&& ~~~ 3#8 = x &&& ~~~ 3#8 ∧
      (x &&& ~~~ 3#8) &&& 3#8 = 0#8 ∧ (x &&& ~~~ 3#8) &&& ~~~ 3#8 = x &&& ~~~ 3#8 := by decide
  obtain ⟨h1,h2,h3,h4⟩ := hbits ppi.toBitVec
  exact ⟨UInt8.toBitVec_inj.mp h1,UInt8.toBitVec_inj.mp h2,UInt8.toBitVec_inj.mp h3,UInt8.toBitVec_inj.mp h4⟩

/-- One tone. -/
theorem play_spec (m : Machine) (hf : frequency ≠ 0) :
    ∃ sounding silent, play m frequency = some (sounding,silent) ∧ (∀ i, i ≠ 2 → sounding.pit i = m.pit i) ∧
      silent.pit = sounding.pit ∧ (sounding.pit 2).mode = 3 ∧
      ((sounding.pit 2).divisor = PIT_FREQUENCY / frequency ↔ 19 ≤ frequency ∧ frequency ≤ PIT_FREQUENCY) ∧
      sounding.ppi &&& 0b11 = 0b11 ∧ silent.ppi = m.ppi &&& ~~~ 0b11 := by
  have hself := @Timer.load_self m.pit CONTROL_WORD (UInt8.ofNat (PIT_FREQUENCY / frequency % 256))
    (UInt8.ofNat (PIT_FREQUENCY / frequency / 256)) (by decide) (by decide)
  rw [Timer.bytes_eq] at hself
  change Timer.load _ _ _ _ 2 = _ at hself
  have hplay : play m frequency = some (on ⟨m.pit.load CONTROL_WORD (UInt8.ofNat (PIT_FREQUENCY / frequency % 256))
      (UInt8.ofNat (PIT_FREQUENCY / frequency / 256)),m.ppi⟩,
      off (on ⟨m.pit.load CONTROL_WORD (UInt8.ofNat (PIT_FREQUENCY / frequency % 256))
      (UInt8.ofNat (PIT_FREQUENCY / frequency / 256)),m.ppi⟩)) := if_neg hf
  obtain ⟨h1,h2,-,-⟩ := ppi_bits m.ppi
  refine ⟨_,_,hplay,fun i hi => Timer.load_ne hi,rfl,?_,?_,h1,h2⟩
  · exact congrArg Counter.mode hself
  · rw [← counter_fits hf]
    exact Iff.of_eq (congrArg (·.divisor = PIT_FREQUENCY / frequency) hself)

private theorem plays_spec {m m' : Machine} {frequencies : List Nat} {soundings : List Machine}
    (h : plays m frequencies = some (soundings,m')) :
    (∀ s ∈ m' :: soundings, s.pit 0 = m.pit 0) ∧ m'.ppi &&& ~~~ 0b11 = m.ppi &&& ~~~ 0b11 ∧
    (frequencies ≠ [] → m'.ppi &&& 0b11 = 0) ∧
    List.Forall₂ (fun frequency s => s.ppi &&& 0b11 = 0b11 ∧ (s.pit 2).mode = 3 ∧
      ((s.pit 2).divisor = PIT_FREQUENCY / frequency ↔ 19 ≤ frequency ∧ frequency ≤ PIT_FREQUENCY)) frequencies
      soundings := by
  induction frequencies generalizing m soundings with
  | nil =>
    cases h
    refine ⟨?_,rfl,fun h => absurd rfl h,.nil⟩
    intro s hs
    rw [List.mem_singleton.mp hs]
  | cons frequency frequencies ih =>
    rw [plays] at h
    by_cases hf : frequency = 0
    · rw [play,if_pos hf] at h
      cases h
    obtain ⟨sounding,silent,hplay,hothers,hpit,hmode,htone,hon,hoff⟩ := play_spec m hf
    obtain ⟨-,-,hlow,hhigh⟩ := ppi_bits m.ppi
    rw [hplay] at h
    obtain ⟨⟨soundings',m''⟩,hrest,heq⟩ := Option.map_eq_some_iff.mp h
    cases heq
    obtain ⟨h1,h2,h3,h4⟩ := ih hrest
    have htimer : sounding.pit 0 = m.pit 0 := hothers 0 (by decide)
    rw [hpit,htimer] at h1
    rw [hoff,hhigh] at h2
    refine ⟨?_,h2,?_,.cons ⟨hon,hmode,htone⟩ h4⟩
    · intro s hs
      rcases List.mem_cons.mp hs with rfl | hs
      · exact h1 s List.mem_cons_self
      · rcases List.mem_cons.mp hs with rfl | hs
        · exact htimer
        · exact h1 s (List.mem_cons_of_mem _ hs)
    · intro _
      cases frequencies with
      | nil =>
        cases hrest
        rw [hoff]
        exact hlow
      | cons => exact h3 (List.cons_ne_nil _ _)

/-- Whatever is played after the timer was plugged in, the timer keeps its period of 1193 ticks, the speaker is on
while a tone sounds and off in the end, with the other bits of its register as they were, and a tone has the period that
was asked for exactly when its frequency is between 19 Hz and that of the chip. -/
theorem tones_keep_timer {m m' : Machine} {pit : Timer} {frequencies : List Nat} {soundings : List Machine}
    (htimer : Pit.setInterruptInterval m.pit Pit.TIMER_INTERRUPT_INTERVAL_MS = some pit)
    (hplays : plays { m with pit := pit } frequencies = some (soundings,m')) :
    (∀ s ∈ m' :: soundings, (s.pit 0).mode = 3 ∧ (s.pit 0).half = none ∧ (s.pit 0).divisor = 1193) ∧
    m'.ppi &&& ~~~ 0b11 = m.ppi &&& ~~~ 0b11 ∧ (frequencies ≠ [] → m'.ppi &&& 0b11 = 0) ∧
    List.Forall₂ (fun frequency s => s.ppi &&& 0b11 = 0b11 ∧ (s.pit 2).mode = 3 ∧
      ((s.pit 2).divisor = PIT_FREQUENCY / frequency ↔ 19 ≤ frequency ∧ frequency ≤ PIT_FREQUENCY)) frequencies
      soundings := by
  obtain ⟨pit',hpit',-,haccess,hmode,hhalf,hdivisor⟩ :=
    @Pit.setInterruptInterval_spec m.pit Pit.TIMER_INTERRUPT_INTERVAL_MS (by decide) (by decide)
  obtain rfl := Option.some.inj (htimer.symm.trans hpit')
  obtain ⟨h1,h2,h3,h4⟩ := plays_spec hplays
  refine ⟨?_,h2,h3,h4⟩
  intro s hs
  have hsame : s.pit 0 = pit 0 := h1 s hs
  rw [hsame,hmode,hhalf,hdivisor]
  exact ⟨rfl,rfl,by decide⟩

private theorem plays_isSome (m : Machine) {frequencies : List Nat} (h : 0 ∉ frequencies) :
    ∃ soundings m', plays m frequencies = some (soundings,m') := by
  induction frequencies generalizing m with
  | nil => exact ⟨[],m,rfl⟩
  | cons frequency frequencies ih =>
    rw [List.mem_cons,not_or] at h
    obtain ⟨sounding,silent,hplay,-⟩ := play_spec m fun hf => h.1 hf.symm
    obtain ⟨soundings,m',hrest⟩ := ih silent h.2
    refine ⟨sounding :: soundings,m',?_⟩
    simp only [plays, hplay, hrest, Option.map_some]

/-- The first tones of a melody. -/
theorem tones_keep_timer_sample : ∃ (m m' : Machine) (soundings : List Machine),
    plays m [658,1320,990] = some (soundings,m') ∧ (m'.pit 0).divisor = 1193 ∧ m'.ppi &&& 0b11 = 0 := by
  let m : Machine := ⟨fun _ => ⟨.latch,0,none,0⟩,0x30⟩
  obtain ⟨pit,hpit,-⟩ := @Pit.setInterruptInterval_spec m.pit Pit.TIMER_INTERRUPT_INTERVAL_MS (by decide) (by decide)
  obtain ⟨soundings,m',hplays⟩ := @plays_isSome { m with pit := pit } [658,1320,990] (by decide)
  have h := tones_keep_timer hpit hplays
  exact ⟨_,m',soundings,hplays,(h.1 _ List.mem_cons_self).2.2,h.2.2.1 (List.cons_ne_nil _ _)⟩

end HeineOS.Speaker
