import HeineOS.Device.Pit
import HeineOS.Device.Terminal
import HeineOS.Lib.Jobs

/-! The console: contexts that use the terminal at the same time, each under its lock, while the timer draws a
spinner on the framebuffer whenever it finds that one's lock free. -/
namespace HeineOS.Console
open Lib Protocol Terminal

/-- The statements of the functions of the terminal. -/
inductive Edit where
  | draw (c : Char)
  | wrap (c : Char)
  | scroll
  | setPos (col row : Nat)
  | clear
  | home

def Edit.run (font : Font) (p : Terminal × Bytes) : Edit → Option (Terminal × Bytes)
  | .draw c =>
    if c ≠ '\n' then
      (p.1.framebuffer.drawChar font p.2 c (p.1.pos.1 * Framebuffer.charWidth) (p.1.pos.2 * font.charHeight)
        defaultFgColor defaultBgColor).map fun m => ({ p.1 with pos := (p.1.pos.1 + 1,p.1.pos.2) },m)
    else some p
  | .wrap c => some (if p.1.pos.1 ≥ p.1.cols ∨ c = '\n' then ({ p.1 with pos := (0,p.1.pos.2 + 1) },p.2) else p)
  | .scroll =>
    some (if p.1.pos.2 ≥ p.1.rows then
      ({ p.1 with pos := (p.1.pos.1,p.1.rows - 1) },p.1.framebuffer.scrollUp font p.2 1) else p)
  | .setPos col row => some (p.1.setPos col row,p.2)
  | .clear => some (p.1,p.1.framebuffer.clear p.2)
  | .home => some ({ p.1 with pos := (0,0) },p.2)

/-- The steps of the contexts that others may come between. -/
inductive Op where
  | lockTerminal
  | unlockTerminal
  | lockFramebuffer
  | unlockFramebuffer
  | edit (e : Edit)

abbrev Op.Result : Op → Type := fun _ => Unit

/-- A context that is done goes on with something else. -/
inductive Proc where
  | idle

abbrev Code := Program Op.Result Proc

def perform (i : Op) : Code Unit := Program.perform i
def call (p : Proc) : Code Unit := .call p (.pure ())

/-- `put_char_colored` with the default colours. -/
def putChar (c : Char) : Code Unit := do
  perform .lockFramebuffer
  perform (.edit (.draw c))
  perform (.edit (.wrap c))
  perform (.edit .scroll)
  perform .unlockFramebuffer

def writeStr : List Char → Code Unit
  | [] => pure ()
  | c :: s => do
    putChar c
    writeStr s

/-- The guard of the framebuffer is dropped before the cursor is set. -/
def clear : Code Unit := do
  perform .lockFramebuffer
  perform (.edit .clear)
  perform .unlockFramebuffer
  perform (.edit .home)

def doCall : Call → Code Unit
  | .putChar c => putChar c
  | .writeStr s => writeStr s.toList
  | .setPos col row => perform (.edit (.setPos col row))
  | .clear => clear

def calls : List Call → Code Unit
  | [] => pure ()
  | c :: cs => do
    doCall c
    calls cs

/-- What a context does with the terminal while it holds the guard of `terminal().lock()`. -/
def withTerminal (job : List Call) : Code Unit := do
  perform .lockTerminal
  calls job
  perform .unlockTerminal

/-- `print` writes a formatted text piece by piece; the macros call it under the lock. -/
def print (pieces : List String) : List Call := pieces.map .writeStr

/-- A context does its jobs one after the other. -/
def work : List (List Call) → Code Unit
  | [] => call .idle
  | job :: jobs => do
    withTerminal job
    work jobs

def Proc.body : Proc → Code Unit
  | .idle => call .idle

structure Shared where
  terminalLocked : Bool
  framebufferLocked : Bool
  terminal : Terminal
  memory : Bytes
  time : Nat

section
variable (font : Font)

/-- A lock that is held keeps the others spinning. -/
def Shared.perform (s : Shared) : (i : Op) → Option (i.Result × Shared)
  | .lockTerminal => if s.terminalLocked then none else some ((),{ s with terminalLocked := true })
  | .unlockTerminal => some ((),{ s with terminalLocked := false })
  | .lockFramebuffer => if s.framebufferLocked then none else some ((),{ s with framebufferLocked := true })
  | .unlockFramebuffer => some ((),{ s with framebufferLocked := false })
  | .edit e => (e.run font (s.terminal,s.memory)).map fun p => ((),{ s with terminal := p.1, memory := p.2 })

def white : Nat := Framebuffer.color 170 170 170

def drawSpinner (fb : Framebuffer) (m : Bytes) (c : Char) : Option Bytes :=
  fb.drawChar font m c 768 16 white Framebuffer.black

/-- The timer interrupt, at any point of a context. -/
def tick (s : Shared) : Option Shared :=
  let t := Pit.trigger Pit.TIMER_INTERRUPT_INTERVAL_MS s.time
  match t.spinner with
  | none => some { s with time := t.time }
  | some c =>
    if s.framebufferLocked then some { s with time := t.time }
    else (drawSpinner font s.terminal.framebuffer s.memory c).map fun m => { s with time := t.time, memory := m }

variable (fb : Framebuffer) (m₀ : Bytes) {ι : Type} (jobs : ι → List (List Call))

def conc : Conc ι Unit Unit Shared Op.Result Proc where
  perform _ _ := Shared.perform font
  env _ := tick font
  body := Proc.body

def Initial (s : Conf ι Shared Op.Result Proc) : Prop :=
  s.shared = ⟨false,false,(Terminal.new font fb m₀).1,(Terminal.new font fb m₀).2,0⟩ ∧ s.code = fun c => work (jobs c)

def system [DecidableEq ι] : System (Conf ι Shared Op.Result Proc) (Move ι Unit Unit) :=
  (conc font).system (Initial font fb m₀ jobs)

end

/-- What the terminal does under one lock of the framebuffer, or without it. -/
inductive Action where
  | putChar (c : Char)
  | setPos (col row : Nat)
  | clear
  | home

namespace Action

def locks : Action → Bool
  | putChar _ | clear => true
  | setPos .. | home => false

def edits : Action → List Edit
  | putChar c => [.draw c,.wrap c,.scroll]
  | setPos col row => [.setPos col row]
  | clear => [.clear]
  | home => [.home]

end Action

def actionsOf : Call → List Action
  | .putChar c => [.putChar c]
  | .writeStr s => s.toList.map .putChar
  | .setPos col row => [.setPos col row]
  | .clear => [.clear,.home]

/-- What happens to the screen, in its order. -/
inductive Event where
  | text (a : Action)
  | spinner (c : Char)

section
variable (font : Font)

def Action.run (p : Terminal × Bytes) (a : Action) : Option (Terminal × Bytes) := a.edits.foldlM (Edit.run font) p

def Event.run (p : Terminal × Bytes) : Event → Option (Terminal × Bytes)
  | .text a => a.run font p
  | .spinner c => (drawSpinner font p.1.framebuffer p.2 c).map fun m => (p.1,m)

def replay (p : Terminal × Bytes) (events : List Event) : Option (Terminal × Bytes) := events.foldlM (Event.run font) p

end

def texts (events : List Event) : List Action :=
  events.filterMap fun
    | .text a => some a
    | .spinner _ => none

def spinners (events : List Event) : List Char :=
  events.filterMap fun
    | .text _ => none
    | .spinner c => some c

/-- What a context has done under one lock of the terminal. -/
structure Entry (ι : Type) where
  context : ι
  job : List Call

def Entry.actions {ι : Type} (e : Entry ι) : List Action := e.job.flatMap actionsOf

def printedBy {ι : Type} [DecidableEq ι] (entries : List (Entry ι)) : ι → List (List Call) :=
  doneBy Entry.context Entry.job entries

/-- The characters that the spinner has shown after `n` interrupts, if it never found the lock taken. -/
def due (n : Nat) : List Char :=
  (List.range n).filterMap fun time => (Pit.trigger Pit.TIMER_INTERRUPT_INTERVAL_MS (time % 2^64)).spinner

/-- How far a context that holds the lock of the terminal has come: it is between two actions, or within one that
holds the lock of the framebuffer. -/
inductive Stage where
  | between (job : List Call) (left : List Action)
  | within (job : List Call) (a : Action) (did todo : List Edit) (left : List Action)

def Stage.job : Stage → List Call
  | between job _ | within job .. => job

abbrev Local := Worker Stage (List Call)

namespace Local
variable (g : Local)

def Allowed : Op → Prop
  | .lockTerminal => g.stage = none ∧ ∃ job js, g.todo = job :: js
  | .unlockTerminal => ∃ job, g.stage = some (.between job [])
  | .lockFramebuffer => ∃ job a left, a.locks = true ∧ g.stage = some (.between job (a :: left))
  | .unlockFramebuffer => ∃ job a did left, g.stage = some (.within job a did [] left)
  | .edit e =>
    (∃ job a left, a.locks = false ∧ a.edits = [e] ∧ g.stage = some (.between job (a :: left))) ∨
      ∃ job a did todo left, g.stage = some (.within job a did (e :: todo) left)

def after : Op → Local
  | .lockTerminal => { g with stage := g.todo.head?.map fun job => .between job (job.flatMap actionsOf) }
  | .unlockTerminal => ⟨none,g.todo.tail⟩
  | .lockFramebuffer =>
    match g.stage with
    | some (.between job (a :: left)) => { g with stage := some (.within job a [] a.edits left) }
    | _ => g
  | .unlockFramebuffer =>
    match g.stage with
    | some (.within job _ _ _ left) => { g with stage := some (.between job left) }
    | _ => g
  | .edit _ =>
    match g.stage with
    | some (.between job (_ :: left)) => { g with stage := some (.between job left) }
    | some (.within job a did (e :: todo) left) => { g with stage := some (.within job a (did ++ [e]) todo left) }
    | _ => g

end Local

def protocol : Protocol Op.Result Proc Local where
  allowed := Local.Allowed
  next g i _ g' := g' = g.after i
  pre _ g := g = ⟨none,[]⟩
  post _ _ _ := False

section
variable {α : Type} {g : Local} {job : List Call} {left : List Action} {todo : List (List Call)}

private theorem perform_follows {Q : Local → α → Prop} {i : Op} {f : Unit → Code α} (ha : g.Allowed i)
    (hf : protocol.Follows Q (g.after i) (f ())) : protocol.Follows Q g (perform i >>= f) := by
  refine ⟨ha,?_⟩
  rintro ⟨⟩ _ rfl
  exact hf

private theorem putChar_follows {c : Char} :
    protocol.Follows (fun g' _ => g' = ⟨some (.between job left),todo⟩)
      ⟨some (.between job (.putChar c :: left)),todo⟩ (putChar c) := by
  refine perform_follows ⟨job,_,left,rfl,rfl⟩ ?_
  refine perform_follows (.inr ⟨job,_,[],_,left,rfl⟩) ?_
  refine perform_follows (.inr ⟨job,_,_,_,left,rfl⟩) ?_
  refine perform_follows (.inr ⟨job,_,_,_,left,rfl⟩) ?_
  exact perform_follows (f := .pure) ⟨job,_,_,left,rfl⟩ rfl

private theorem writeStr_follows (s : List Char) :
    protocol.Follows (fun g' _ => g' = ⟨some (.between job left),todo⟩)
      ⟨some (.between job (s.map .putChar ++ left)),todo⟩ (writeStr s) := by
  induction s with
  | nil => rfl
  | cons c s ih =>
    refine Follows.bind (putChar_follows.mono ?_)
    rintro _ _ rfl
    exact ih

private theorem clear_follows :
    protocol.Follows (fun g' _ => g' = ⟨some (.between job left),todo⟩)
      ⟨some (.between job (.clear :: .home :: left)),todo⟩ clear := by
  refine perform_follows ⟨job,_,_,rfl,rfl⟩ ?_
  refine perform_follows (.inr ⟨job,_,[],_,_,rfl⟩) ?_
  refine perform_follows ⟨job,_,_,_,rfl⟩ ?_
  exact perform_follows (f := .pure) (.inl ⟨job,.home,left,rfl,rfl,rfl⟩) rfl

private theorem doCall_follows (c : Call) :
    protocol.Follows (fun g' _ => g' = ⟨some (.between job left),todo⟩)
      ⟨some (.between job (actionsOf c ++ left)),todo⟩ (doCall c) := by
  cases c with
  | putChar c => exact putChar_follows
  | writeStr s => exact writeStr_follows s.toList
  | setPos col row => exact perform_follows (f := .pure) (.inl ⟨job,.setPos col row,left,rfl,rfl,rfl⟩) rfl
  | clear => exact clear_follows

private theorem calls_follows (cs : List Call) :
    protocol.Follows (fun g' _ => g' = ⟨some (.between job left),todo⟩)
      ⟨some (.between job (cs.flatMap actionsOf ++ left)),todo⟩ (calls cs) := by
  induction cs with
  | nil => rfl
  | cons c cs ih =>
    rw [List.flatMap_cons,List.append_assoc]
    refine Follows.bind ((doCall_follows c).mono ?_)
    rintro _ _ rfl
    exact ih

private theorem withTerminal_follows :
    protocol.Follows (fun g' _ => g' = ⟨none,todo⟩) ⟨none,job :: todo⟩ (withTerminal job) := by
  refine perform_follows ⟨rfl,job,todo,rfl⟩ (Follows.bind ?_)
  have hcalls := @calls_follows job [] (job :: todo) job
  rw [List.append_nil] at hcalls
  refine hcalls.mono ?_
  rintro _ _ rfl
  exact perform_follows (f := .pure) ⟨job,rfl⟩ rfl

theorem work_follows (jobs : List (List Call)) :
    protocol.Follows (fun _ _ => False) ⟨none,jobs⟩ (work jobs) := by
  induction jobs with
  | nil => exact ⟨rfl,fun _ hpost => hpost⟩
  | cons job jobs ih =>
    refine Follows.bind (withTerminal_follows.mono ?_)
    rintro _ _ rfl
    exact ih

theorem body_sound : protocol.Sound Proc.body := by
  rintro ⟨⟩ g rfl
  exact ⟨rfl,fun _ hpost => hpost⟩

end

section
variable {font : Font} {p : Terminal × Bytes} {events : List Event}

private theorem texts_text (a : Action) : texts (events ++ [.text a]) = texts events ++ [a] := List.filterMap_append ..

private theorem texts_spinner (c : Char) : texts (events ++ [.spinner c]) = texts events :=
  (List.filterMap_append ..).trans (List.append_nil _)

private theorem spinners_text (a : Action) : spinners (events ++ [.text a]) = spinners events :=
  (List.filterMap_append ..).trans (List.append_nil _)

private theorem spinners_spinner (c : Char) : spinners (events ++ [.spinner c]) = spinners events ++ [c] :=
  List.filterMap_append ..

private theorem replay_concat (e : Event) :
    replay font p (events ++ [e]) = (replay font p events).bind fun q => e.run font q := by
  rw [replay,List.foldlM_append]
  congr 1
  funext q
  exact bind_pure _

private theorem due_succ (n : Nat) :
    due (n + 1) = due n ++ (Pit.trigger Pit.TIMER_INTERRUPT_INTERVAL_MS (n % 2^64)).spinner.toList := by
  rw [due,List.range_succ,List.filterMap_append]
  rfl

end

section
variable {ι : Type} (font : Font) (p₀ : Terminal × Bytes) (entries : List (Entry ι)) (events : List Event)

/-- The actions of the events are those of the entries, and a part of one more job. -/
def Told (part : List Action) : Prop := texts events = entries.flatMap Entry.actions ++ part

/-- Nobody draws, and the screen is what the events have made of it. -/
def Settled (s : Shared) : Prop := s.framebufferLocked = false ∧ replay font p₀ events = some (s.terminal,s.memory)

def Stage.At (s : Shared) : Stage → Prop
  | .between job left =>
    (∃ part, part ++ left = job.flatMap actionsOf ∧ Told entries events part) ∧ Settled font p₀ events s
  | .within job a did todo left =>
    (∃ part, part ++ a :: left = job.flatMap actionsOf ∧ Told entries events part) ∧ s.framebufferLocked = true ∧
      did ++ todo = a.edits ∧
      ∃ p, replay font p₀ events = some p ∧ did.foldlM (Edit.run font) p = some (s.terminal,s.memory)

/-- The lock guards the terminal, and the spinner goes on with the clock. -/
structure Inv [DecidableEq ι] (jobs : ι → List (List Call)) (s : Shared) (v : ι → Local) : Prop where
  working : Working s.terminalLocked (s.terminalLocked = false ∧ Told entries events [] ∧ Settled font p₀ events s)
    (Stage.At font p₀ entries events s) Stage.job jobs (printedBy entries) v
  clock : ∃ n, s.time = n % 2^64 ∧ (spinners events).Sublist (due n)

end

namespace Inv
variable {ι : Type} [DecidableEq ι] {font : Font} {p₀ : Terminal × Bytes} {entries : List (Entry ι)}
  {events : List Event} {jobs : ι → List (List Call)} {s s' : Shared} {v : ι → Local} {c : ι}

private theorem lockTerminal (h : Inv font p₀ entries events jobs s v) (ha : (v c).Allowed .lockTerminal)
    (hfree : s.terminalLocked = false) :
    Inv font p₀ entries events jobs { s with terminalLocked := true }
      (Function.update v c ((v c).after .lockTerminal)) := by
  obtain ⟨-,job,js,htodo⟩ := ha
  have hafter : (v c).after .lockTerminal = ⟨some (.between job (job.flatMap actionsOf)),(v c).todo⟩ := by
    change Worker.mk ((v c).todo.head?.map fun job => Stage.between job (job.flatMap actionsOf)) (v c).todo = _
    rw [htodo]
    rfl
  have hworking := h.working
  rw [hfree] at hworking
  rw [hafter]
  refine ⟨hworking.acquire (g := .between job (job.flatMap actionsOf)) htodo ?_,h.clock⟩
  rintro ⟨-,htold,hsettled⟩
  exact ⟨⟨[],rfl,htold⟩,hsettled⟩

private theorem unlockTerminal (h : Inv font p₀ entries events jobs s v) {job : List Call}
    (hc : (v c).stage = some (.between job [])) :
    Inv font p₀ (entries ++ [⟨c,job⟩]) events jobs { s with terminalLocked := false }
      (Function.update v c ((v c).after .unlockTerminal)) := by
  obtain ⟨⟨part,hpart,htold⟩,hsettled⟩ := h.working.guarded.inside hc
  rw [List.append_nil] at hpart
  refine ⟨?_,h.clock⟩
  rw [printedBy,doneBy_concat]
  refine h.working.release hc ⟨rfl,?_,hsettled⟩
  rw [Told,htold,hpart,List.flatMap_append,List.append_nil]
  simp [Entry.actions]

private theorem lockFramebuffer (h : Inv font p₀ entries events jobs s v) (ha : (v c).Allowed .lockFramebuffer) :
    Inv font p₀ entries events jobs { s with framebufferLocked := true }
      (Function.update v c ((v c).after .lockFramebuffer)) := by
  obtain ⟨job,a,left,-,hc⟩ := ha
  obtain ⟨hpart,-,hreplay⟩ := h.working.guarded.inside hc
  simp only [Local.after, hc]
  have hat : Stage.At font p₀ entries events { s with framebufferLocked := true } (.within job a [] a.edits left) :=
    ⟨hpart,rfl,rfl,_,hreplay,rfl⟩
  exact ⟨h.working.advance hc rfl hat,h.clock⟩

/-- An action is an event when it is complete. -/
private theorem complete (h : Inv font p₀ entries events jobs s v) {g : Stage} (hc : (v c).stage = some g)
    {part left : List Action} {a : Action} (hpart : part ++ a :: left = g.job.flatMap actionsOf)
    (htold : Told entries events part) {p : Terminal × Bytes} (hreplay : replay font p₀ events = some p)
    (hrun : a.run font p = some (s'.terminal,s'.memory)) (hfree : s'.framebufferLocked = false)
    (hlocked : s'.terminalLocked = s.terminalLocked) (htime : s'.time = s.time) :
    Inv font p₀ entries (events ++ [.text a]) jobs s'
      (Function.update v c ⟨some (.between g.job left),(v c).todo⟩) := by
  obtain ⟨n,hn,hspinners⟩ := h.clock
  refine ⟨?_,⟨n,htime.trans hn,by rwa [spinners_text]⟩⟩
  rw [hlocked]
  refine h.working.advance hc rfl ⟨⟨part ++ [a],?_,?_⟩,hfree,?_⟩
  · rw [List.append_assoc]
    exact hpart
  · rw [Told,texts_text,htold,List.append_assoc]
  · rw [replay_concat,hreplay]
    exact hrun

private theorem unlockFramebuffer (h : Inv font p₀ entries events jobs s v) (ha : (v c).Allowed .unlockFramebuffer) :
    ∃ events', Inv font p₀ entries events' jobs { s with framebufferLocked := false }
      (Function.update v c ((v c).after .unlockFramebuffer)) := by
  obtain ⟨job,a,did,left,hc⟩ := ha
  obtain ⟨⟨part,hpart,htold⟩,-,hedits,p,hreplay,hdid⟩ := h.working.guarded.inside hc
  rw [List.append_nil] at hedits
  subst hedits
  simp only [Local.after, hc]
  exact ⟨_,h.complete hc hpart htold hreplay hdid rfl rfl rfl⟩

private theorem edit (h : Inv font p₀ entries events jobs s v) {e : Edit} (ha : (v c).Allowed (.edit e))
    {p' : Terminal × Bytes} (hrun : e.run font (s.terminal,s.memory) = some p') :
    ∃ events', Inv font p₀ entries events' jobs { s with terminal := p'.1, memory := p'.2 }
      (Function.update v c ((v c).after (.edit e))) := by
  rcases ha with ⟨job,a,left,-,hedits,hc⟩ | ⟨job,a,did,todo,left,hc⟩
  · obtain ⟨⟨part,hpart,htold⟩,hfree,hreplay⟩ := h.working.guarded.inside hc
    simp only [Local.after, hc]
    refine ⟨_,h.complete hc hpart htold hreplay ?_ hfree rfl rfl⟩
    rw [Action.run,hedits,List.foldlM_cons,hrun]
    rfl
  · obtain ⟨hpart,hlocked,hedits,p,hreplay,hdid⟩ := h.working.guarded.inside hc
    simp only [Local.after, hc]
    refine ⟨events,h.working.advance hc rfl ⟨hpart,hlocked,?_,p,hreplay,?_⟩,h.clock⟩
    · rw [List.append_assoc]
      exact hedits
    · rw [List.foldlM_append,hdid]
      change (e.run font (s.terminal,s.memory)).bind _ = _
      rw [hrun]
      rfl

/-- The clock goes on, and nothing else changes. -/
private theorem time (h : Inv font p₀ entries events jobs s v) :
    Inv font p₀ entries events jobs { s with time := (s.time + Pit.TIMER_INTERRUPT_INTERVAL_MS) % 2^64 } v := by
  obtain ⟨n,hn,hspinners⟩ := h.clock
  refine ⟨h.working.mono ?_ id,⟨n + 1,?_,?_⟩⟩
  · rintro (⟨job,left⟩ | ⟨job,a,did,todo,left⟩) hat <;> exact hat
  · change (s.time + 1) % 2^64 = _
    rw [hn,Nat.mod_add_mod]
  · rw [due_succ]
    exact hspinners.trans (List.sublist_append_left ..)

private theorem spin (h : Inv font p₀ entries events jobs s v) {ch : Char}
    (hspinner : (Pit.trigger Pit.TIMER_INTERRUPT_INTERVAL_MS s.time).spinner = some ch)
    (hfree : s.framebufferLocked = false) {m : Bytes}
    (hdraw : drawSpinner font s.terminal.framebuffer s.memory ch = some m) :
    Inv font p₀ entries (events ++ [.spinner ch]) jobs
      { s with time := (s.time + Pit.TIMER_INTERRUPT_INTERVAL_MS) % 2^64, memory := m } v := by
  obtain ⟨n,hn,hspinners⟩ := h.clock
  have hsettled (hreplay : replay font p₀ events = some (s.terminal,s.memory)) :
      replay font p₀ (events ++ [.spinner ch]) = some (s.terminal,m) := by
    rw [replay_concat,hreplay]
    change (drawSpinner font s.terminal.framebuffer s.memory ch).map _ = _
    rw [hdraw]
    rfl
  refine ⟨h.working.mono ?_ ?_,⟨n + 1,?_,?_⟩⟩
  · rintro (⟨job,left⟩ | ⟨job,a,did,todo,left⟩) hat
    · obtain ⟨⟨part,hpart,htold⟩,-,hreplay⟩ := hat
      exact ⟨⟨part,hpart,by rwa [Told,texts_spinner]⟩,hfree,hsettled hreplay⟩
    · rw [hat.2.1] at hfree
      cases hfree
  · rintro ⟨hlocked,htold,-,hreplay⟩
    exact ⟨hlocked,by rwa [Told,texts_spinner],hfree,hsettled hreplay⟩
  · change (s.time + 1) % 2^64 = _
    rw [hn,Nat.mod_add_mod]
  · rw [due_succ,spinners_spinner,← hn,hspinner]
    exact hspinners.append (List.Sublist.refl _)

private theorem env (h : Inv font p₀ entries events jobs s v) (he : tick font s = some s') :
    ∃ events', Inv font p₀ entries events' jobs s' v := by
  rw [tick] at he
  split at he
  · cases he
    exact ⟨events,h.time⟩
  · rename_i ch hspinner
    split at he
    · cases he
      exact ⟨events,h.time⟩
    · rename_i hfree
      obtain ⟨m,hdraw,rfl⟩ := Option.map_eq_some_iff.mp he
      exact ⟨_,h.spin hspinner (Bool.not_eq_true _ ▸ hfree) hdraw⟩

/-- At most one job has been begun, and the screen is as the events say while nobody draws. -/
private theorem begun_part (h : Inv font p₀ entries events jobs s v) :
    ∃ part, Told entries events part ∧
      (s.framebufferLocked = false → replay font p₀ events = some (s.terminal,s.memory)) ∧
      (s.terminalLocked = false → part = [] ∧ s.framebufferLocked = false) ∧
      (part ≠ [] → ∃ e : Entry ι, part <+: e.actions ∧ printedBy entries e.context ++ [e.job] <+: jobs e.context) := by
  by_cases hnone : ∀ c, (v c).stage = none
  · obtain ⟨-,htold,hfree,hreplay⟩ := h.working.guarded.rest hnone
    exact ⟨[],htold,fun _ => hreplay,fun _ => ⟨rfl,hfree⟩,fun hne => absurd rfl hne⟩
  obtain ⟨c,hc⟩ := not_forall.mp hnone
  obtain ⟨g,hg⟩ := Option.ne_none_iff_exists'.mp hc
  have hlocked : s.terminalLocked = true := h.working.guarded.locked hg
  have hbefore := h.working.underway hg
  have hat := h.working.guarded.inside hg
  rw [hlocked]
  cases g with
  | between job left =>
    obtain ⟨⟨part,hpart,htold⟩,-,hreplay⟩ := hat
    exact ⟨part,htold,fun _ => hreplay,nofun,fun _ => ⟨⟨c,job⟩,⟨left,hpart⟩,hbefore⟩⟩
  | within job a did todo left =>
    obtain ⟨⟨part,hpart,htold⟩,hbusy,-⟩ := hat
    rw [hbusy]
    exact ⟨part,htold,nofun,nofun,fun _ => ⟨⟨c,job⟩,⟨a :: left,hpart⟩,hbefore⟩⟩

end Inv

section
variable {ι : Type} [DecidableEq ι] {font : Font} {fb : Framebuffer} {m₀ : Bytes} {jobs : ι → List (List Call)}
  {s : Conf ι Shared Op.Result Proc}

private theorem upholds (font : Font) (p₀ : Terminal × Bytes) : (@conc font ι).Upholds protocol
    (fun _ _ _ _ => True) (fun _ _ => True) fun s v => ∃ entries events, Inv font p₀ entries events jobs s v where
  sound := body_sound
  op := by
    rintro c ⟨⟩ s i r s' v ⟨entries,events,h⟩ ha - hperform
    refine ⟨_,rfl,?_⟩
    cases i with
    | lockTerminal =>
      simp only [conc, Shared.perform] at hperform
      split at hperform
      · cases hperform
      · rename_i hfree
        cases hperform
        exact ⟨entries,events,h.lockTerminal ha (Bool.not_eq_true _ ▸ hfree)⟩
    | unlockTerminal =>
      cases hperform
      obtain ⟨job,hc⟩ := ha
      exact ⟨_,_,h.unlockTerminal hc⟩
    | lockFramebuffer =>
      simp only [conc, Shared.perform] at hperform
      split at hperform
      · cases hperform
      · cases hperform
        exact ⟨entries,events,h.lockFramebuffer ha⟩
    | unlockFramebuffer =>
      cases hperform
      exact ⟨entries,h.unlockFramebuffer ha⟩
    | edit e =>
      obtain ⟨p',hrun,hp⟩ := Option.map_eq_some_iff.mp hperform
      cases hp
      exact ⟨entries,h.edit ha hrun⟩
  env := by
    rintro ⟨⟩ s s' v ⟨entries,events,h⟩ - he
    exact ⟨entries,h.env he⟩

private theorem keeping_initial (h : Initial font fb m₀ jobs s) : ∃ v, Conc.Keeping protocol
    (fun s v => ∃ entries events, Inv font (Terminal.new font fb m₀) entries events jobs s v) s v := by
  obtain ⟨hshared,hcode⟩ := h
  refine ⟨fun c => ⟨none,jobs c⟩,⟨[],[],?_⟩,?_⟩
  · rw [hshared]
    exact ⟨.start ⟨rfl,rfl,rfl,rfl⟩,⟨0,rfl,.slnil⟩⟩
  · intro c
    rw [hcode]
    exact work_follows (jobs c)

end

section
variable {font : Font} {fb : Framebuffer}

/-- The same bytes outside of the columns of the spinner. -/
structure Alike (fb : Framebuffer) (m m' : Bytes) : Prop where
  below : ∀ a, a < fb.address → m a = m' a
  place : ∀ y b, b < fb.pitch → ¬ (y < fb.height ∧ 4 * 768 ≤ b ∧ b < 4 * 776) → m (fb.place y b) = m' (fb.place y b)

/-- What drawing a character does to a byte does not depend on the memory. -/
private theorem drawChar_overlay (hp : 4 * fb.width ≤ fb.pitch) {c : Char} {charPixels : List UInt8}
    (hglyph : font.glyph c = some charPixels) (hlen : charPixels.length = font.charHeight) (x y fgColor bgColor : Nat) :
    ∃ value : Nat → Nat → Option UInt8,
      (∀ y' b, value y' b ≠ none → y' < fb.height ∧ 4 * x ≤ b ∧ b < 4 * x + 32) ∧
      ∀ m, ∃ m', fb.drawChar font m c x y fgColor bgColor = some m' ∧ (∀ a, a < fb.address → m' a = m a) ∧
        ∀ y' b, b < fb.pitch → m' (fb.place y' b) = (value y' b).getD (m (fb.place y' b)) := by
  by_cases hfit : x + 8 ≤ fb.width ∧ y + font.charHeight ≤ fb.height
  · refine ⟨fun y' b => if (y ≤ y' ∧ y' < y + font.charHeight) ∧ 4 * x ≤ b ∧ b < 4 * x + 32 then
      some (Framebuffer.rowByte (fun i => Framebuffer.glyphColor charPixels fgColor bgColor (i - x) (y' - y)) b)
      else none,?_,?_⟩
    · intro y' b hvalue
      dsimp only at hvalue
      split at hvalue
      · omega
      · exact absurd rfl hvalue
    · intro m
      obtain ⟨m',hdraw,hbelow,hplace⟩ := Framebuffer.drawChar_spec hglyph hlen hp hfit.1 hfit.2
      refine ⟨m',hdraw,hbelow,fun y' b hb => ?_⟩
      rw [hplace y' b hb]
      dsimp only
      split <;> rfl
  · refine ⟨fun _ _ => none,fun _ _ hvalue => absurd rfl hvalue,fun m => ⟨m,?_,fun _ _ => rfl,fun _ _ _ => rfl⟩⟩
    rw [Framebuffer.drawChar,if_pos]
    rw [Framebuffer.charWidth]
    omega

namespace Alike
variable {m m' : Bytes} {c : Char} {charPixels : List UInt8}

private theorem drawChar (h : Alike fb m m') (hp : 4 * fb.width ≤ fb.pitch) (hglyph : font.glyph c = some charPixels)
    (hlen : charPixels.length = font.charHeight) (x y fgColor bgColor : Nat) :
    ∃ n n', fb.drawChar font m c x y fgColor bgColor = some n ∧ fb.drawChar font m' c x y fgColor bgColor = some n' ∧
      Alike fb n n' := by
  obtain ⟨value,-,hoverlay⟩ := drawChar_overlay hp hglyph hlen x y fgColor bgColor
  obtain ⟨n,hn,hbelow,hplace⟩ := hoverlay m
  obtain ⟨n',hn',hbelow',hplace'⟩ := hoverlay m'
  refine ⟨n,n',hn,hn',fun a ha => ?_,fun y' b hb hout => ?_⟩
  · rw [hbelow a ha,hbelow' a ha,h.below a ha]
  · rw [hplace y' b hb,hplace' y' b hb,h.place y' b hb hout]

private theorem drawSpinner (h : Alike fb m m') (hp : 4 * fb.width ≤ fb.pitch) (hglyph : font.glyph c = some charPixels)
    (hlen : charPixels.length = font.charHeight) :
    ∃ n, Console.drawSpinner font fb m c = some n ∧ Alike fb n m' := by
  obtain ⟨value,hvalue,hoverlay⟩ := drawChar_overlay hp hglyph hlen 768 16 white Framebuffer.black
  obtain ⟨n,hn,hbelow,hplace⟩ := hoverlay m
  refine ⟨n,hn,fun a ha => (hbelow a ha).trans (h.below a ha),fun y b hb hout => ?_⟩
  have hnone : value y b = none := by
    by_contra hne
    exact hout (hvalue y b hne)
  rw [hplace y b hb,hnone]
  exact h.place y b hb hout

private theorem scrollUp (h : Alike fb m m') : Alike fb (fb.scrollUp font m 1) (fb.scrollUp font m' 1) where
  below a ha := by rw [Framebuffer.scrollUp_below ha,Framebuffer.scrollUp_below ha,h.below a ha]
  place y b hb hout := by
    rw [Framebuffer.scrollUp_place hb,Framebuffer.scrollUp_place hb]
    split
    · exact h.place _ b hb (by omega)
    · rw [h.place y b hb hout]

private theorem outside (h : Alike fb m m') (hp : 0 < fb.pitch) {a : Nat}
    (ha : a < fb.address ∨ fb.address + fb.pitch * fb.height ≤ a) : m a = m' a := by
  rcases Nat.lt_or_ge a fb.address with hlt | hge
  · exact h.below a hlt
  · obtain ⟨y,b,hb,rfl⟩ := Framebuffer.exists_place hp hge
    refine h.place y b hb fun hin => ?_
    have hle := Nat.mul_le_mul_left fb.pitch (Nat.succ_le_of_lt hin.1)
    rw [Nat.mul_succ,Nat.mul_comm] at hle
    simp only [Framebuffer.place] at ha
    omega

private theorem clear (h : Alike fb m m') : Alike fb (fb.clear m) (fb.clear m') where
  below a ha := by rw [Framebuffer.clear_below ha,Framebuffer.clear_below ha,h.below a ha]
  place y b hb hout := by rw [Framebuffer.clear_place hb,Framebuffer.clear_place hb,h.place y b hb hout]

end Alike

/-- The same terminal, on this framebuffer, and the same screen outside of the columns of the spinner. -/
structure Matches (fb : Framebuffer) (p q : Terminal × Bytes) : Prop where
  terminal : p.1 = q.1
  framebuffer : p.1.framebuffer = fb
  memory : Alike fb p.2 q.2

def Edit.Drawable (font : Font) : Edit → Prop
  | .draw c => Terminal.Drawable font c
  | _ => True

private theorem edit_matches (hp : 4 * fb.width ≤ fb.pitch) {e : Edit} (hd : e.Drawable font) {p q : Terminal × Bytes}
    (h : Matches fb p q) : ∃ p' q', e.run font p = some p' ∧ e.run font q = some q' ∧ Matches fb p' q' := by
  obtain ⟨t,m⟩ := p
  obtain ⟨t',m'⟩ := q
  obtain ⟨rfl,rfl,hm⟩ := h
  dsimp only at hm
  cases e with
  | draw c =>
    by_cases hnl : c = '\n'
    · exact ⟨_,_,if_neg (not_not.mpr hnl),if_neg (not_not.mpr hnl),rfl,rfl,hm⟩
    · obtain ⟨charPixels,hglyph,hlen⟩ := hd.resolve_left hnl
      obtain ⟨n,n',hn,hn',hm'⟩ := hm.drawChar hp hglyph hlen (t.pos.1 * Framebuffer.charWidth)
        (t.pos.2 * font.charHeight) defaultFgColor defaultBgColor
      simp only [Edit.run, ne_eq, hnl, not_false_eq_true, if_true, hn, hn', Option.map_some]
      exact ⟨_,_,rfl,rfl,rfl,rfl,hm'⟩
  | wrap c =>
    refine ⟨_,_,rfl,rfl,?_⟩
    dsimp only
    split <;> exact ⟨rfl,rfl,hm⟩
  | scroll =>
    refine ⟨_,_,rfl,rfl,?_⟩
    dsimp only
    split
    · exact ⟨rfl,rfl,hm.scrollUp⟩
    · exact ⟨rfl,rfl,hm⟩
  | setPos col row => exact ⟨_,_,rfl,rfl,rfl,rfl,hm⟩
  | clear => exact ⟨_,_,rfl,rfl,rfl,rfl,hm.clear⟩
  | home => exact ⟨_,_,rfl,rfl,rfl,rfl,hm⟩

private theorem edits_match (hp : 4 * fb.width ≤ fb.pitch) {edits : List Edit} (hd : ∀ e ∈ edits, e.Drawable font)
    {p q : Terminal × Bytes} (h : Matches fb p q) :
    ∃ p' q', edits.foldlM (Edit.run font) p = some p' ∧ edits.foldlM (Edit.run font) q = some q' ∧
      Matches fb p' q' := by
  induction edits generalizing p q with
  | nil => exact ⟨p,q,rfl,rfl,h⟩
  | cons e edits ih =>
    obtain ⟨p₁,q₁,hp₁,hq₁,h₁⟩ := edit_matches hp (hd e List.mem_cons_self) h
    rw [List.foldlM_cons,List.foldlM_cons,hp₁,hq₁]
    exact ih (fun e' he' => hd e' (List.mem_cons_of_mem _ he')) h₁

/-- Without the spinner the screen would be the same outside of its columns. -/
private theorem replay_matches (hp : 4 * fb.width ≤ fb.pitch) {events : List Event}
    (htexts : ∀ a ∈ texts events, ∀ e ∈ a.edits, e.Drawable font)
    (hspinners : ∀ c ∈ spinners events, ∃ charPixels, font.glyph c = some charPixels ∧
      charPixels.length = font.charHeight) {p q : Terminal × Bytes} (h : Matches fb p q) :
    ∃ p' q', replay font p events = some p' ∧ (texts events).foldlM (Action.run font) q = some q' ∧
      Matches fb p' q' := by
  induction events generalizing p q with
  | nil => exact ⟨p,q,rfl,rfl,h⟩
  | cons event events ih =>
    cases event with
    | text a =>
      have hcons : texts (.text a :: events) = a :: texts events := rfl
      rw [hcons] at htexts ⊢
      obtain ⟨p₁,q₁,hp₁,hq₁,h₁⟩ := edits_match hp (htexts a List.mem_cons_self) h
      obtain ⟨p',q',hp',hq',h'⟩ := ih (fun a' ha' => htexts a' (List.mem_cons_of_mem _ ha')) hspinners h₁
      refine ⟨p',q',?_,?_,h'⟩
      · change (a.run font p).bind _ = _
        rw [Action.run,hp₁]
        exact hp'
      · change (a.run font q).bind _ = _
        rw [Action.run,hq₁]
        exact hq'
    | spinner c =>
      obtain ⟨charPixels,hglyph,hlen⟩ := hspinners c List.mem_cons_self
      obtain ⟨n,hn,hm⟩ := h.memory.drawSpinner hp hglyph hlen
      obtain ⟨p',q',hp',hq',h'⟩ := ih htexts (fun c' hc' => hspinners c' (List.mem_cons_of_mem _ hc'))
        (p := (p.1,n)) ⟨h.terminal,h.framebuffer,hm⟩
      refine ⟨p',q',?_,hq',h'⟩
      change ((Console.drawSpinner font p.1.framebuffer p.2 c).map _).bind _ = _
      rw [h.framebuffer,hn]
      exact hp'

end

section
variable {font : Font}

private theorem putChar_run (p : Terminal × Bytes) (c : Char) :
    Action.run font p (.putChar c) = p.1.putChar font p.2 c := by
  obtain ⟨t,m⟩ := p
  rw [Action.run,Terminal.putChar,Terminal.putCharColored]
  by_cases hnl : c = '\n'
  · by_cases hlast : t.rows ≤ t.pos.2 + 1 <;> simp [Action.edits,Edit.run,hnl,hlast]
  cases hdraw : t.framebuffer.drawChar font m c (t.pos.1 * Framebuffer.charWidth) (t.pos.2 * font.charHeight)
    defaultFgColor defaultBgColor with
  | none => simp [Action.edits,Edit.run,hnl,hdraw]
  | some m' =>
    by_cases hline : t.cols ≤ t.pos.1 + 1
    · by_cases hlast : t.rows ≤ t.pos.2 + 1 <;> simp [Action.edits,Edit.run,hnl,hdraw,hline,hlast]
    · by_cases hlast : t.rows ≤ t.pos.2 <;> simp [Action.edits,Edit.run,hnl,hdraw,hline,hlast]

private theorem actionsOf_run (p : Terminal × Bytes) (c : Call) :
    (actionsOf c).foldlM (Action.run font) p = Terminal.exec font p c := by
  cases c with
  | putChar c =>
    rw [actionsOf,List.foldlM_cons,putChar_run]
    exact bind_pure _
  | writeStr s =>
    rw [actionsOf,List.foldlM_map]
    simp only [putChar_run]
    rfl
  | setPos col row => rfl
  | clear => rfl

/-- The actions of calls do what the calls do one after the other. -/
private theorem calls_run (p : Terminal × Bytes) (calls : List Call) :
    (calls.flatMap actionsOf).foldlM (Action.run font) p = Terminal.execAll font p calls := by
  induction calls generalizing p with
  | nil => rfl
  | cons c calls ih =>
    rw [List.flatMap_cons,List.foldlM_append,actionsOf_run,Terminal.execAll,List.foldlM_cons]
    congr 1
    funext q
    exact ih q

private theorem putChar_drawable {c : Char} (hd : Terminal.Drawable font c) {e : Edit}
    (he : e ∈ (Action.putChar c).edits) : e.Drawable font := by
  simp only [Action.edits, List.mem_cons, List.not_mem_nil, or_false] at he
  rcases he with rfl | rfl | rfl
  · exact hd
  · trivial
  · trivial

theorem edits_drawable {calls : List Call} (hd : ∀ call ∈ calls, ∀ c ∈ call.chars, Terminal.Drawable font c)
    {a : Action} (ha : a ∈ calls.flatMap actionsOf) {e : Edit} (he : e ∈ a.edits) : e.Drawable font := by
  obtain ⟨call,hcall,ha⟩ := List.mem_flatMap.mp ha
  cases call with
  | putChar c =>
    obtain rfl := List.mem_singleton.mp ha
    exact putChar_drawable (hd _ hcall c List.mem_cons_self) he
  | writeStr s =>
    obtain ⟨c,hc,rfl⟩ := List.mem_map.mp ha
    exact putChar_drawable (hd _ hcall c hc) he
  | setPos col row =>
    obtain rfl := List.mem_singleton.mp ha
    obtain rfl := List.mem_singleton.mp he
    trivial
  | clear =>
    simp only [actionsOf, List.mem_cons, List.not_mem_nil, or_false] at ha
    rcases ha with rfl | rfl <;> obtain rfl := List.mem_singleton.mp he <;> trivial

theorem mem_trigger {c : Char} {time : Nat}
    (h : (Pit.trigger Pit.TIMER_INTERRUPT_INTERVAL_MS time).spinner = some c) : c ∈ Pit.SPINNER_CHARS := by
  rw [Pit.trigger] at h
  dsimp only at h
  split at h
  · exact List.mem_of_getElem? h
  · cases h

private theorem mem_due {c : Char} {n : Nat} (h : c ∈ due n) : c ∈ Pit.SPINNER_CHARS := by
  obtain ⟨time,-,hspinner⟩ := List.mem_filterMap.mp h
  exact mem_trigger hspinner

theorem spinner_glyph (hspinner : ∀ c ∈ Pit.SPINNER_CHARS, Terminal.Drawable font c) {c : Char}
    (hc : c ∈ Pit.SPINNER_CHARS) : ∃ charPixels, font.glyph c = some charPixels ∧ charPixels.length = font.charHeight := by
  refine (hspinner c hc).resolve_left ?_
  rintro rfl
  exact absurd hc (by decide)

end

section
variable {ι : Type} [DecidableEq ι] {font : Font} {fb : Framebuffer} {m₀ : Bytes} {jobs : ι → List (List Call)}
  {s : Conf ι Shared Op.Result Proc}

private theorem matches_refl {p : Terminal × Bytes} (h : p.1.framebuffer = fb) : Matches fb p p :=
  ⟨rfl,h,fun _ _ => rfl,fun _ _ _ _ => rfl⟩

private theorem pitch_of_fits (hf : Fits font fb) : 0 < fb.pitch := by
  have hwidth := hf.width
  have hpitch := hf.pitch
  rw [Framebuffer.charWidth] at hwidth
  omega

/-- The whole jobs on the terminal are the same calls on a screen of characters. -/
private theorem entries_shown (hf : Fits font fb)
    (hjobs : ∀ c, ∀ job ∈ jobs c, ∀ call ∈ job, ∀ ch ∈ call.chars, Terminal.Drawable font ch)
    (hspinner : ∀ ch ∈ Pit.SPINNER_CHARS, Terminal.Drawable font ch) {entries : List (Entry ι)} {events : List Event}
    {v : ι → Local} {n : Nat} {sh : Shared} (hinv : Inv font (Terminal.new font fb m₀) entries events jobs sh v)
    (htold : Told entries events []) (hclock : (spinners events).Sublist (due n)) {p : Terminal × Bytes}
    (hreplay : replay font (Terminal.new font fb m₀) events = some p) :
    ∃ q, Matches fb p q ∧ Shows font fb m₀ q
      ((Screen.blank (fb.width / Framebuffer.charWidth) (fb.height / font.charHeight)).execAll
        (entries.flatMap Entry.job)) := by
  have hdrawable : ∀ call ∈ entries.flatMap Entry.job, ∀ ch ∈ call.chars, Terminal.Drawable font ch := by
    intro call hcall
    obtain ⟨e,he,hcall⟩ := List.mem_flatMap.mp hcall
    refine hjobs e.context e.job ?_ call hcall
    rw [← hinv.working.accounts]
    exact List.mem_append_left _ (mem_doneBy Entry.context Entry.job he)
  have htexts : texts events = (entries.flatMap Entry.job).flatMap actionsOf := by
    rw [htold,List.append_nil,List.flatMap_assoc]
    rfl
  have hedits : ∀ a ∈ texts events, ∀ e ∈ a.edits, e.Drawable font := by
    intro a ha e he
    rw [htexts] at ha
    exact edits_drawable hdrawable ha he
  obtain ⟨p',q,hp',hq,hmatches⟩ := replay_matches hf.pitch hedits
    (fun c hc => spinner_glyph hspinner (mem_due (hclock.subset hc))) (matches_refl (p := Terminal.new font fb m₀) rfl)
  rw [hreplay] at hp'
  cases hp'
  obtain ⟨q',hexec,hshows⟩ := execAll_shows hf hdrawable (shows_new hf m₀)
  rw [htexts,calls_run,hexec] at hq
  cases hq
  exact ⟨_,hmatches,hshows⟩

/-- Whatever the contexts print and wherever the timer interrupts them, the screen is what whole jobs make of it, one
after the other: those of each context in its order, and at most one more that the holder of the lock has begun. The
spinner comes between two characters only, and leaves out what is due while somebody draws. While the lock is free, the
cursor and all pixels outside of the eight columns of the spinner are those of the jobs alone. -/
theorem jobs_whole (hf : Fits font fb)
    (hjobs : ∀ c, ∀ job ∈ jobs c, ∀ call ∈ job, ∀ ch ∈ call.chars, Terminal.Drawable font ch)
    (hspinner : ∀ ch ∈ Pit.SPINNER_CHARS, Terminal.Drawable font ch) (h : (system font fb m₀ jobs).Reachable s) :
    ∃ (entries : List (Entry ι)) (events : List Event) (part : List Action),
      texts events = entries.flatMap Entry.actions ++ part ∧
      (∃ n, s.shared.time = n % 2^64 ∧ (spinners events).Sublist (due n)) ∧
      (s.shared.framebufferLocked = false →
        replay font (Terminal.new font fb m₀) events = some (s.shared.terminal,s.shared.memory)) ∧
      (∀ c, printedBy entries c <+: jobs c ∧ (s.code c = call .idle → printedBy entries c = jobs c)) ∧
      (part ≠ [] → ∃ e : Entry ι, part <+: e.actions ∧ printedBy entries e.context ++ [e.job] <+: jobs e.context) ∧
      (s.shared.terminalLocked = false → part = [] ∧ s.shared.framebufferLocked = false ∧
        let screen := (Screen.blank (fb.width / Framebuffer.charWidth) (fb.height / font.charHeight)).execAll
          (entries.flatMap Entry.job)
        s.shared.terminal.pos = (screen.col,screen.row) ∧
        (∀ y b, y < fb.height → b < fb.pitch → ¬ (4 * 768 ≤ b ∧ b < 4 * 776) →
          s.shared.memory (fb.place y b) = Framebuffer.rowByte (fun x => screen.pixel font x y) b) ∧
        ∀ a, a < fb.address ∨ fb.address + fb.pitch * fb.height ≤ a → s.shared.memory a = m₀ a) := by
  obtain ⟨v,⟨entries,events,hinv⟩,hfollows⟩ :=
    (upholds font (Terminal.new font fb m₀)).always (fun _ => keeping_initial) h
  obtain ⟨part,htold,hreplay,hfree,hpart⟩ := hinv.begun_part
  obtain ⟨n,hn,hclock⟩ := hinv.clock
  refine ⟨entries,events,part,htold,⟨n,hn,hclock⟩,hreplay,fun c => ⟨⟨_,hinv.working.accounts c⟩,fun hcode => ?_⟩,
    hpart,?_⟩
  · have hidle := hfollows c
    rw [hcode] at hidle
    exact hinv.working.finished (congrArg Worker.todo hidle.1)
  · intro hlocked
    obtain ⟨rfl,hbusy⟩ := hfree hlocked
    obtain ⟨q,hmatches,hshows⟩ := entries_shown hf hjobs hspinner hinv htold hclock (hreplay hbusy)
    refine ⟨rfl,hbusy,?_,?_,?_⟩
    · exact (congrArg Terminal.pos hmatches.terminal).trans hshows.pos
    · intro y b hy hb hout
      rw [← hshows.picture.inside y b hy hb]
      exact hmatches.memory.place y b hb fun hin => hout hin.2
    · intro a ha
      rw [← hshows.picture.outside a ha]
      exact hmatches.memory.outside (pitch_of_fits hf) ha

end

/-- All characters are blocks. -/
def blocks : Font where
  charHeight := 16
  charHeight_pos := by decide
  glyph _ := some (List.replicate 16 255)

/-- A screen of two rows that just holds the spinner. -/
def narrow : Framebuffer := ⟨776,32,3104,0⟩

/-- Two contexts, one of which prints two characters, and the other one. -/
def twoJobs (c : Bool) : List (List Call) := if c then [print ["c"]] else [print ["ab"]]

def twoStart : Conf Bool Shared Op.Result Proc where
  shared := ⟨false,false,(Terminal.new blocks narrow fun _ => 1).1,(Terminal.new blocks narrow fun _ => 1).2,0⟩
  code c := work (twoJobs c)

theorem twoJobs_drawable : ∀ c, ∀ job ∈ twoJobs c, ∀ call ∈ job, ∀ ch ∈ call.chars,
    Terminal.Drawable blocks ch := fun _ _ _ _ _ _ _ => .inr ⟨_,rfl,rfl⟩

theorem spinner_drawable : ∀ ch ∈ Pit.SPINNER_CHARS, Terminal.Drawable blocks ch :=
  fun _ _ => .inr ⟨_,rfl,rfl⟩

private theorem reachable {moves : List (Move Bool Unit Unit)} {s : Conf Bool Shared Op.Result Proc}
    (h : (conc blocks).execAll (fun _ _ => true) twoStart moves = some s) :
    (system blocks narrow (fun _ => 1) twoJobs).Reachable s :=
  System.Reachable.of_restrict ⟨twoStart,moves,⟨rfl,rfl⟩,Conc.run_of_execAll h⟩

/-- The timer interrupts the first context between its characters. -/
theorem jobs_whole_sample : ∃ s : Conf Bool Shared Op.Result Proc,
    (system blocks narrow (fun _ => 1) twoJobs).Reachable s ∧ s.shared.terminal.pos = (3,0) ∧
      s.shared.memory (narrow.place 16 3072) = 170 ∧ s.shared.memory (narrow.place 7 93) = 170 ∧
      ∃ (entries : List (Entry Bool)) (events : List Event), texts events = entries.flatMap Entry.actions ∧
        printedBy entries true <+: twoJobs true := by
  have hrun : ((conc blocks).execAll (fun _ _ => true) twoStart
      (List.replicate 6 (.run false ()) ++ .env () :: List.replicate 6 (.run false ()) ++
        List.replicate 7 (.run true ()))).any
      (fun s => s.shared.terminal.pos == (3,0) && s.shared.memory (narrow.place 16 3072) == 170 &&
        s.shared.memory (narrow.place 7 93) == 170 && !s.shared.terminalLocked) = true := by
    decide +kernel
  obtain ⟨s,hs,hgoal⟩ := (Option.any_eq_true _ _).mp hrun
  simp only [Bool.and_eq_true, beq_iff_eq, Bool.not_eq_true'] at hgoal
  obtain ⟨⟨⟨hpos,hspinner⟩,htext⟩,hfree⟩ := hgoal
  obtain ⟨entries,events,part,htexts,-,-,hprinted,-,hscreen⟩ :=
    jobs_whole ⟨by decide,by decide,by decide⟩ twoJobs_drawable spinner_drawable (reachable hs)
  rw [(hscreen hfree).1,List.append_nil] at htexts
  exact ⟨s,reachable hs,hpos,hspinner,htext,entries,events,htexts,(hprinted true).1⟩

end HeineOS.Console
