import HeineOS.Device.Pic
import HeineOS.Interrupt.Idt
import HeineOS.Lib.System

/-! The way of an interrupt request from its line over the controllers to the handler that a driver has plugged
in. -/
namespace HeineOS.Dispatcher
open Lib Pic
open Idt (idtSize)

/-- The vectors of the hardware interrupts that drivers name. -/
inductive InterruptVector where
  | pit
  | keyboard

def InterruptVector.toNat : InterruptVector → Nat
  | pit => 0x20
  | keyboard => 0x21

section
variable {α : Type}

/-- The handlers; there is no result where a function panics. -/
abbrev IntVectors (α : Type) := List (Option α)

def IntVectors.init (map : IntVectors α) : Option (IntVectors α) :=
  if map.isEmpty then some (List.replicate idtSize none) else none

def IntVectors.registerDynamic (map : IntVectors α) (vector : Nat) (isr : α) : Option (IntVectors α) :=
  if vector < map.length then some (map.set vector (some isr)) else none

def IntVectors.register (map : IntVectors α) (vector : InterruptVector) (isr : α) : Option (IntVectors α) :=
  map.registerDynamic vector.toNat isr

/-- The handler that runs, if one is registered. -/
def IntVectors.report (map : IntVectors α) (vector : Nat) : Option (Option α) := map[vector]?

/-- The dispatcher panics if no handler is registered. -/
def dispatchInterrupt (map : IntVectors α) (vector : Nat) : Option α := (map.report vector).join

/-- The line of the network card, and its vector; other numbers panic. -/
def rtl8139Irq (irqNum : Nat) : Option (Irq × Nat) :=
  match irqNum with
  | 9 => some (.free1,irqNum + 32)
  | 10 => some (.free2,irqNum + 32)
  | 11 => some (.free3,irqNum + 32)
  | _ => none

end

/-- The controllers, the handlers and the interrupt flag. `midway` is the driver that has allowed its line and not
registered its handler yet, `plugged` the last handler plugged in for each line and `served` the handlers that have
run. -/
structure State (α : Type) where
  pics : Controller
  map : IntVectors α
  ie : Bool
  midway : Option (Irq × α)
  plugged : Irq → Option α
  served : List (Irq × α)
  panicked : Bool

inductive Label (α : Type) where
  | allow (irq : Irq) (isr : α)
  | register
  | sti
  | cli
  | request (irq : Irq)

namespace State
variable {α : Type} (s : State α)

/-- The second half of `plugin`. -/
def register (irq : Irq) (isr : α) : State α :=
  match s.map.registerDynamic (32 + irq.toNat) isr with
  | none => { s with panicked := true }
  | some map => { s with map := map, midway := none, plugged := Function.update s.plugged irq (some isr) }

/-- A request on a line; without the interrupt flag it waits. -/
def request (irq : Irq) : State α :=
  if s.ie then
    match s.pics.vector irq.toNat with
    | none => s
    | some vector =>
      match dispatchInterrupt s.map vector with
      | none => { s with panicked := true }
      | some isr => { s with served := s.served ++ [(irq,isr)] }
  else s

/-- What happens next, as long as the kernel has not panicked. -/
def step : Label α → Option (State α)
  | .allow irq isr =>
    if s.panicked = false ∧ s.midway.isNone then
      some { s with pics := Pic.allow s.pics irq, midway := some (irq,isr) }
    else none
  | .register => if s.panicked then none else s.midway.map fun plugin => s.register plugin.1 plugin.2
  | .sti => if s.panicked then none else some { s with ie := true }
  | .cli => if s.panicked then none else some { s with ie := false }
  | .request irq => if s.panicked then none else some (s.request irq)

end State

variable {α : Type}

variable (α) in
/-- The kernel has set up the handlers and the controllers, whatever state those were in, with interrupts off. -/
def system : System (State α) (Label α) where
  init s := ∃ p, s = ⟨Pic.init p,List.replicate idtSize none,false,none,fun _ => none,[],false⟩
  step s l s' := s.step l = some s'

/-- Drivers are plugged in while interrupts are off, as the boot code does it. -/
def Ordered (s : State α) : Label α → Prop
  | .allow irq _ => s.ie = false ∧ irq ≠ .cascade
  | .sti => s.midway.isNone
  | _ => True

structure Inv (s : State α) : Prop where
  tracks : Tracks s.pics fun irq => irq = .cascade ∨ (s.plugged irq).isSome ∨ s.midway.map Prod.fst = some irq
  length : s.map.length = idtSize
  handlers : ∀ irq : Irq, s.map[32 + irq.toNat]? = some (s.plugged irq)
  midway : s.midway.isSome → s.ie = false
  cascade : s.plugged .cascade = none ∧ s.midway.map Prod.fst ≠ some .cascade
  calm : s.panicked = false

private theorem toNat_lt (irq : Irq) : irq.toNat < 16 := by
  cases irq <;> decide

private theorem toNat_inj {irq irq' : Irq} (h : irq.toNat = irq'.toNat) : irq = irq' := by
  revert h
  cases irq <;> cases irq' <;> decide

section
variable {s s' : State α} {l : Label α}

private theorem inv_init (p : Controller) :
    Inv (⟨Pic.init p,List.replicate idtSize none,false,none,fun _ => none,[],false⟩ : State α) := by
  refine ⟨?_,List.length_replicate,?_,nofun,⟨rfl,nofun⟩,rfl⟩
  · have h := tracks_init p
    refine ⟨h.master,h.slave,?_⟩
    intro irq
    rw [h.bit]
    simp [wanted]
  · intro irq
    have hlt := toNat_lt irq
    rw [List.getElem?_replicate,if_pos (by rw [idtSize]; omega)]

private theorem if_calm {β : Type} (h : s.panicked = false) (x : Option β) :
    (if s.panicked = true then none else x) = x := if_neg (by rw [h]; exact Bool.false_ne_true)

theorem dispatchInterrupt_eq {map : IntVectors α} {vector : Nat} {isr : Option α} (h : map[vector]? = some isr) :
    dispatchInterrupt map vector = isr := by
  rw [dispatchInterrupt,IntVectors.report,h]
  rfl

/-- While interrupts are on, a request is forwarded exactly for the lines with a handler, and finds it. -/
theorem request_eq (hi : Inv s) (hie : s.ie = true) (irq : Irq) :
    s.request irq = match s.plugged irq with
      | none => s
      | some isr => { s with served := s.served ++ [(irq,isr)] } := by
  have hmid : s.midway = none := by
    cases hm : s.midway with
    | none => rfl
    | some plugin =>
      have hoff := hi.midway (by rw [hm]; rfl)
      rw [hie] at hoff
      cases hoff
  have hvector := vector_eq hi.tracks irq
  rw [State.request,if_pos hie,hvector]
  by_cases hc : irq = .cascade
  · rw [if_neg fun h => h.1 hc,hc,hi.cascade.1]
  · cases hp : s.plugged irq with
    | none =>
      have hout : ¬ (irq = .cascade ∨ (none : Option α).isSome ∨ s.midway.map Prod.fst = some irq) := by
        rw [hmid]
        rintro (h | h | h)
        · exact hc h
        · cases h
        · cases h
      rw [if_neg fun h => hout (of_decide_eq_true h.2.1)]
    | some isr =>
      rw [if_pos ⟨hc,decide_eq_true (.inr (.inl rfl)),fun _ => decide_eq_true (.inl rfl)⟩]
      simp only [dispatchInterrupt_eq (hi.handlers irq), hp]

private theorem inv_allow (hi : Inv s) {irq : Irq} {isr : α} (hie : s.ie = false) (hne : irq ≠ .cascade)
    (hmid : s.midway = none) :
    Inv { s with pics := Pic.allow s.pics irq, midway := some (irq,isr) } := by
  refine ⟨?_,hi.length,hi.handlers,fun _ => hie,⟨hi.cascade.1,?_⟩,hi.calm⟩
  · have h := tracks_allow hi.tracks irq
    refine ⟨h.master,h.slave,?_⟩
    intro irq'
    rw [h.bit]
    by_cases he : irq' = irq
    · subst he
      simp
    · rw [Function.update_of_ne he]
      simp [hmid, Ne.symm he]
  · intro h
    exact hne (Option.some.inj h)

private theorem inv_register (hi : Inv s) {irq : Irq} {isr : α} (hmid : s.midway = some (irq,isr)) :
    Inv (s.register irq isr) := by
  have hlt := toNat_lt irq
  have hin : 32 + irq.toNat < s.map.length := by
    rw [hi.length,idtSize]
    omega
  have hne : irq ≠ .cascade := by
    rintro rfl
    exact hi.cascade.2 (by rw [hmid]; rfl)
  have hregister : s.register irq isr = { s with
      map := s.map.set (32 + irq.toNat) (some isr), midway := none,
      plugged := Function.update s.plugged irq (some isr) } := by
    rw [State.register,IntVectors.registerDynamic,if_pos hin]
  rw [hregister]
  refine ⟨?_,?_,?_,nofun,⟨?_,nofun⟩,hi.calm⟩
  · have h := hi.tracks
    refine ⟨h.master,h.slave,?_⟩
    intro irq'
    rw [h.bit]
    by_cases he : irq' = irq
    · subst he
      simp [hmid]
    · simp [hmid, Ne.symm he, Function.update_of_ne he]
  · rw [List.length_set]
    exact hi.length
  · intro irq'
    by_cases he : irq' = irq
    · subst he
      simp only [Function.update_self, List.getElem?_set_self hin]
    · simp only [Function.update_of_ne he]
      rw [List.getElem?_set_ne fun h => he (toNat_inj (by omega))]
      exact hi.handlers irq'
  · simp only [Function.update_of_ne hne.symm]
    exact hi.cascade.1

theorem inv_step (hi : Inv s) (ho : Ordered s l) (hs : s.step l = some s') : Inv s' := by
  cases l with
  | allow irq isr =>
    simp only [State.step] at hs
    split at hs
    · rename_i h
      cases hs
      exact inv_allow hi ho.1 ho.2 (Option.isNone_iff_eq_none.mp h.2)
    · cases hs
  | register =>
    rw [State.step,if_calm hi.calm] at hs
    obtain ⟨plugin,hmid,rfl⟩ := Option.map_eq_some_iff.mp hs
    exact inv_register hi hmid
  | sti =>
    rw [State.step,if_calm hi.calm] at hs
    cases hs
    refine ⟨hi.tracks,hi.length,hi.handlers,?_,hi.cascade,hi.calm⟩
    intro h
    rw [Option.isNone_iff_eq_none.mp ho] at h
    cases h
  | cli =>
    rw [State.step,if_calm hi.calm] at hs
    cases hs
    exact ⟨hi.tracks,hi.length,hi.handlers,fun _ => rfl,hi.cascade,hi.calm⟩
  | request irq =>
    rw [State.step,if_calm hi.calm] at hs
    cases hs
    cases hie : s.ie with
    | false =>
      rw [State.request,hie]
      exact hi
    | true =>
      rw [request_eq hi hie]
      cases s.plugged irq with
      | none => exact hi
      | some isr => exact ⟨hi.tracks,hi.length,hi.handlers,hi.midway,hi.cascade,hi.calm⟩

theorem inv_reachable (h : ((system α).restrict Ordered).Reachable s) : Inv s := by
  apply h.invariant
  · rintro s ⟨p,rfl⟩
    exact inv_init p
  · intro s l s' hi hs
    exact inv_step hi hs.1 hs.2

end

/-- If drivers are plugged in while interrupts are off only, the kernel never panics over an interrupt, in any order of
requests, plug-ins and changes of the interrupt flag: while interrupts are on, a request on a line runs the handler
that was plugged in for it last, and nothing if there is none. A driver that is plugged in while they are on can be
met by a request before its handler is there, and the kernel panics. -/
theorem requests_served {s : State α} (hs : ((system α).restrict Ordered).Reachable s) :
    s.panicked = false ∧
    (s.ie = true → ∀ irq, s.step (.request irq) = some (match s.plugged irq with
      | none => s
      | some isr => { s with served := s.served ++ [(irq,isr)] })) ∧
    (s.ie = true → ∀ irq isr, irq ≠ .cascade → s.plugged irq = none →
      ∃ s' s'', s.step (.allow irq isr) = some s' ∧ s'.step (.request irq) = some s'' ∧ s''.panicked = true) := by
  have hi := inv_reachable hs
  refine ⟨hi.calm,?_,?_⟩
  · intro hie irq
    rw [State.step,if_calm hi.calm,request_eq hi hie]
  · intro hie irq isr hne hnone
    have hmid : s.midway = none := by
      cases hm : s.midway with
      | none => rfl
      | some plugin =>
        have hoff := hi.midway (by rw [hm]; rfl)
        rw [hie] at hoff
        cases hoff
    have hvector := vector_eq (tracks_allow hi.tracks irq) irq
    rw [if_pos ⟨hne,Function.update_self _ _ _,fun _ => by rw [Function.update_of_ne hne.symm]; simp⟩] at hvector
    have hstep : s.step (.allow irq isr) = some { s with pics := Pic.allow s.pics irq, midway := some (irq,isr) } :=
      if_pos ⟨hi.calm,Option.isNone_iff_eq_none.mpr hmid⟩
    refine ⟨_,_,hstep,if_calm hi.calm _,?_⟩
    simp only [State.request, hie, if_true, hvector, dispatchInterrupt_eq (hi.handlers irq), hnone]

/-- The last handler for each line after some drivers have been plugged in. -/
def plugAll (drivers : List (Irq × α)) (plugged : Irq → Option α) : Irq → Option α :=
  drivers.foldl (fun plugged driver => Function.update plugged driver.1 (some driver.2)) plugged

/-- A driver that is plugged in while interrupts are off. -/
theorem plug_reachable {s : State α} (h : ((system α).restrict Ordered).Reachable s) (hie : s.ie = false)
    (hmid : s.midway = none) {irq : Irq} (hne : irq ≠ .cascade) (isr : α) :
    ∃ map, s.map.registerDynamic (32 + irq.toNat) isr = some map ∧ ((system α).restrict Ordered).Reachable
      { s with pics := Pic.allow s.pics irq, map, plugged := Function.update s.plugged irq (some isr) } := by
  have hi := inv_reachable h
  have hlt := toNat_lt irq
  have hin : 32 + irq.toNat < s.map.length := by
    rw [hi.length,idtSize]
    omega
  have hmap : s.map.registerDynamic (32 + irq.toNat) isr = some (s.map.set (32 + irq.toNat) (some isr)) := if_pos hin
  have hallow : s.step (.allow irq isr) = some { s with pics := Pic.allow s.pics irq, midway := some (irq,isr) } :=
    if_pos ⟨hi.calm,Option.isNone_iff_eq_none.mpr hmid⟩
  have h₁ : ((system α).restrict Ordered).step s (.allow irq isr) _ := ⟨⟨hie,hne⟩,hallow⟩
  have hregister : State.step { s with pics := Pic.allow s.pics irq, midway := some (irq,isr) } .register = some _ :=
    if_calm hi.calm _
  have h₂ : ((system α).restrict Ordered).step _ .register _ := ⟨trivial,hregister⟩
  have hreach := (h.step h₁).step h₂
  simp only [State.register, hmap] at hreach
  rw [← hmid] at hreach
  exact ⟨_,hmap,hreach⟩

/-- Drivers are plugged in in order, and none for the line any more. -/
def Settled (irq : Irq) (s : State α) (l : Label α) : Prop := Ordered s l ∧ ∀ isr, l ≠ .allow irq isr

private theorem all_plugged_in {drivers : List (Irq × α)} (hne : ∀ d ∈ drivers, d.1 ≠ .cascade) {s : State α}
    (h : ((system α).restrict Ordered).Reachable s) (hie : s.ie = false) (hmid : s.midway = none) :
    ∃ s', ((system α).restrict Ordered).Reachable s' ∧ s'.ie = false ∧ s'.midway = none ∧
      s'.plugged = plugAll drivers s.plugged := by
  induction drivers generalizing s with
  | nil => exact ⟨s,h,hie,hmid,rfl⟩
  | cons d drivers ih =>
    obtain ⟨map,-,ha⟩ := plug_reachable h hie hmid (hne d List.mem_cons_self) d.2
    obtain ⟨b,hb,hbIe,hbMid,hbPlugged⟩ := ih (fun d' hd => hne d' (List.mem_cons_of_mem _ hd)) ha hie hmid
    exact ⟨b,hb,hbIe,hbMid,hbPlugged⟩

/-- The boot code plugs in its drivers in turn and enables interrupts. -/
theorem boot_reachable {drivers : List (Irq × α)} (hne : ∀ d ∈ drivers, d.1 ≠ .cascade) :
    ∃ s, ((system α).restrict Ordered).Reachable s ∧ s.ie = true ∧
      s.plugged = plugAll drivers fun _ => none := by
  have hinit : ((system α).restrict Ordered).Reachable
      ⟨Pic.init ⟨⟨.ready,false,false,0,0,0,0⟩,⟨.ready,false,false,0,0,0,0⟩⟩,List.replicate idtSize none,false,none,
        fun _ => none,[],false⟩ := .of_init ⟨_,rfl⟩
  obtain ⟨s,hs,-,hmid,hplugged⟩ := all_plugged_in hne hinit rfl rfl
  have hsti : ((system α).restrict Ordered).step s .sti { s with ie := true } :=
    ⟨Option.isNone_iff_eq_none.mpr hmid,if_calm (inv_reachable hs).calm _⟩
  exact ⟨_,hs.step hsti,rfl,hplugged⟩

/-- The boot code with a network card on line 11: the keyboard is served, and the line of the disk is not. -/
theorem requests_served_boot : ∃ s : State String, s.plugged .primaryAta = none ∧
    s.step (.request .keyboard) = some { s with served := s.served ++ [(.keyboard,"KeyboardISR")] } ∧
    s.step (.request .primaryAta) = some s := by
  obtain ⟨s,hs,hie,hplugged⟩ := @boot_reachable String [(Irq.timer,"TimerISR"),(.keyboard,"KeyboardISR"),
    (.free3,"Rtl8139ISR")] (by decide)
  have hkeyboard : s.plugged .keyboard = some "KeyboardISR" := by
    rw [hplugged]
    rfl
  have hdisk : s.plugged .primaryAta = none := by
    rw [hplugged]
    rfl
  have h := (requests_served hs).2.1 hie
  refine ⟨s,hdisk,?_,?_⟩
  · have hk := h .keyboard
    rw [hkeyboard] at hk
    exact hk
  · have hd := h .primaryAta
    rw [hdisk] at hd
    exact hd

end HeineOS.Dispatcher
