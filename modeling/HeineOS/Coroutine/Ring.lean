import HeineOS.Coroutine.Coroutine

/-! Any run of coroutines: who gets the processor with each switch, and what a coroutine finds when it gets it
back. -/
namespace HeineOS.Coroutine
open Lib
open Switch (Context Status)

/-- The processor, the coroutine it runs, if any, where the others stand, and what the fields `next` were set to. -/
structure State (T : Type) where
  cpu : Cpu
  cur : Option T
  status : T → Status
  next : T → Option T

/-- `switch back`: the running coroutine calls `coroutine_switch`, with `back` as return address. -/
inductive Label (T : Type) where
  | new (t : T)
  | setNext (t n : T)
  | start (t : T)
  | run
  | switch (back : BitVec 64)

def Label.isSwitch {T : Type} : Label T → Bool
  | .switch _ => true
  | _ => false

def Label.relinks {T : Type} : Label T → Bool
  | .setNext _ _ => true
  | _ => false

/-- The coroutine `k` links after `c`. -/
def follow {T : Type} (next : T → Option T) : Nat → T → Option T
  | 0,c => some c
  | k + 1,c => (next c).bind (follow next k)

/-- From `c`, the links lead back to `c` after `k` of them, and not before. -/
structure IsRing {T : Type} (next : T → Option T) (c : T) (k : Nat) : Prop where
  closed : follow next k c = some c
  first : ∀ j, 0 < j → j < k → follow next j c ≠ some c

variable {T : Type}

def State.Alive (s : State T) (t : T) : Prop := s.status t ≠ .absent

/-- The context that a coroutine has to be resumed in. -/
def saved (L : Layout T) (t : T) : Status → Option Context
  | .fresh => some (initial L t)
  | .parked k => some k
  | _ => none

variable {L : Layout T} {s s' : State T} {l : Label T}

section
variable [DecidableEq T]

/-- `set_next` takes two exclusive references, so that no coroutine is linked to itself. `run` is any other code, of
the running coroutine or before the first one is started; it does not write to the links, nor to the stacks of the
others. -/
inductive Step (L : Layout T) : State T → Label T → State T → Prop where
  | new {s : State T} {t : T} (h : s.status t = .absent) :
      Step L s (.new t) { s with
        cpu := { s.cpu with mem := new L t s.cpu.mem }, status := Function.update s.status t .fresh }
  | setNext {s : State T} {t n : T} (ht : s.Alive t) (hn : s.Alive n) (hne : t ≠ n) :
      Step L s (.setNext t n) { s with
        cpu := { s.cpu with mem := setNext L t n s.cpu.mem }, next := Function.update s.next t (some n) }
  | run {s : State T} {cpu : Cpu} (hlinks : ∀ t, s.Alive t → ∀ a, L.Link t a → cpu.mem a = s.cpu.mem a)
      (hothers : ∀ t, s.Alive t → s.cur ≠ some t → ∀ a, L.Owns t a → cpu.mem a = s.cpu.mem a) :
      Step L s .run { s with cpu := cpu }
  | start {s : State T} {t : T} (hcur : s.cur = none) (ht : s.status t = .fresh)
      (hrdi : (s.cpu.regs .rdi).toNat = s.cpu.mem.load (L.stackPtr t).toNat 8) :
      Step L s (.start t) { s with
        cpu := s.cpu.exec coroutineStart, cur := some t, status := Function.update s.status t .running }
  | switch {s : State T} {c n : T} {back : BitVec 64} (hcur : s.cur = some c) (hnext : s.next c = some n)
      (hcall : CallsSwitch L c s.cpu) :
      Step L s (.switch back) { s with
        cpu := (s.cpu.push back).exec coroutineSwitch, cur := some n,
        status := Function.update (Function.update s.status c (.parked ⟨s.cpu.regs,s.cpu.rflags,back⟩)) n .running }

/-- No coroutine exists at first. -/
def system (L : Layout T) : System (State T) (Label T) where
  init s := s.cur = none ∧ ∀ t, s.status t = .absent ∧ s.next t = none
  step := Step L

end

structure Inv (L : Layout T) (s : State T) : Prop where
  saved : ∀ t k, saved L t (s.status t) = some k → Holds L t s.cpu.mem k
  cur : ∀ t, s.status t = .running ↔ s.cur = some t
  apart : ∀ t n, s.next t = some n → t ≠ n
  links : ∀ t n, s.next t = some n →
    s.Alive t ∧ s.Alive n ∧ s.cpu.mem.load (L.next t).toNat 8 = (L.coroutine n).toNat

private theorem alive_of_saved {t : T} {k : Context} (h : saved L t (s.status t) = some k) : s.Alive t := by
  intro habs
  rw [habs] at h
  cases h

private theorem not_running_of_saved {t : T} {k : Context} (h : saved L t (s.status t) = some k) :
    s.status t ≠ .running := by
  intro hrun
  rw [hrun] at h
  cases h

theorem saved_of_alive {t : T} (h : s.Alive t) (hr : s.status t ≠ .running) :
    ∃ k, saved L t (s.status t) = some k := by
  unfold State.Alive at h
  cases hs : s.status t with
  | absent => exact absurd hs h
  | fresh => exact ⟨_,rfl⟩
  | running => exact absurd hs hr
  | parked k => exact ⟨k,rfl⟩

private theorem load_link {m m' : Bytes} {t : T} (h : ∀ a, L.Link t a → m' a = m a) :
    m'.load (L.next t).toNat 8 = m.load (L.next t).toNat 8 := Bytes.load_congr fun a h1 h2 => h a ⟨h1,h2⟩

/-- `Coroutine::switch` finds the stack pointer of the coroutine it is linked to. -/
private theorem rsi_eq (hi : Inv L s) {c n : T} (hnext : s.next c = some n) (hcall : CallsSwitch L c s.cpu) :
    (s.cpu.regs .rsi).toNat = s.cpu.mem.load (L.stackPtr n).toNat 8 := by
  rw [hcall.rsi,(hi.links c n hnext).2.2,BitVec.ofNat_toNat,BitVec.setWidth_eq]
  rfl

private theorem waiting (hi : Inv L s) {c n : T} (hcur : s.cur = some c) (hnext : s.next c = some n) :
    ∃ k, saved L n (s.status n) = some k := by
  apply saved_of_alive (hi.links c n hnext).2.1
  intro hr
  have h := (hi.cur n).mp hr
  rw [hcur] at h
  exact hi.apart c n hnext (Option.some.inj h)

section
variable [DecidableEq T]

private theorem fresh_ne : Status.fresh ≠ .absent := Status.noConfusion
private theorem running_ne : Status.running ≠ .absent := Status.noConfusion
private theorem parked_ne {k : Context} : Status.parked k ≠ .absent := Status.noConfusion

private theorem alive_update {f : T → Status} {t' : T} (t : T) {status : Status} (h : status ≠ .absent)
    (ht : f t' ≠ .absent) : Function.update f t status t' ≠ .absent := by
  by_cases he : t' = t
  · subst he
    rwa [Function.update_self]
  · rw [Function.update_of_ne he]
    exact ht

private theorem inv_new (hi : Inv L s) {t : T} (h : s.status t = .absent) :
    Inv L { s with cpu := { s.cpu with mem := new L t s.cpu.mem }, status := Function.update s.status t .fresh } := by
  have habs : ∀ t' n, s.next t' = some n → t' ≠ t := by
    rintro t' n hn rfl
    exact (hi.links t' n hn).1 h
  refine ⟨?_,?_,hi.apart,?_⟩
  · intro t' k hk
    by_cases he : t' = t
    · subst he
      simp only [Function.update_self, saved, Option.some.injEq] at hk
      subst hk
      exact holds_new
    · simp only [Function.update_of_ne he] at hk
      apply (hi.saved t' k hk).of_owns
      intro a ha
      exact new_frame (Layout.owns_apart he ha) fun hl => Layout.link_not_owned hl ha
  · intro t'
    by_cases he : t' = t
    · subst he
      have hcur := hi.cur t'
      rw [h] at hcur
      simp only [Function.update_self]
      exact ⟨nofun,fun hc => absurd (hcur.mpr hc) nofun⟩
    · simp only [Function.update_of_ne he]
      exact hi.cur t'
  · intro t' n hn
    obtain ⟨ht',hn',hload⟩ := hi.links t' n hn
    refine ⟨alive_update t fresh_ne ht',alive_update t fresh_ne hn',?_⟩
    rw [← hload]
    apply load_link
    intro a ha
    exact new_frame (Layout.link_not_owned ha) (Layout.links_apart (habs t' n hn) ha)

private theorem inv_setNext (hi : Inv L s) {t n : T} (ht : s.Alive t) (hn : s.Alive n) (hne : t ≠ n) :
    Inv L { s with cpu := { s.cpu with mem := setNext L t n s.cpu.mem }, next := Function.update s.next t (some n) } := by
  refine ⟨?_,hi.cur,?_,?_⟩
  · intro t' k hk
    apply (hi.saved t' k hk).of_owns
    intro a ha
    exact Bytes.store_of_not_mem _ _ fun hl => Layout.link_not_owned hl ha
  · intro t' n' hn'
    by_cases he : t' = t
    · subst he
      simp only [Function.update_self, Option.some.injEq] at hn'
      rwa [← hn']
    · simp only [Function.update_of_ne he] at hn'
      exact hi.apart t' n' hn'
  · intro t' n' hn'
    by_cases he : t' = t
    · subst he
      simp only [Function.update_self, Option.some.injEq] at hn'
      subst hn'
      exact ⟨ht,hn,Bytes.load_store_of_lt _ (L.coroutine n).isLt⟩
    · simp only [Function.update_of_ne he] at hn'
      obtain ⟨h1,h2,hload⟩ := hi.links t' n' hn'
      refine ⟨h1,h2,?_⟩
      rw [← hload]
      apply load_link
      intro a ha
      exact Bytes.store_of_not_mem _ _ (Layout.links_apart he ha)

private theorem inv_start (hi : Inv L s) {t : T} (hcur : s.cur = none) (ht : s.status t = .fresh)
    (hrdi : (s.cpu.regs .rdi).toNat = s.cpu.mem.load (L.stackPtr t).toNat 8) :
    Inv L { s with
      cpu := s.cpu.exec coroutineStart, cur := some t, status := Function.update s.status t .running } := by
  have hk := hi.saved t (initial L t) (by rw [ht]; rfl)
  obtain ⟨-,-,-,hmem⟩ := start_spec hk hrdi
  refine ⟨?_,?_,hi.apart,?_⟩
  · intro t' k hk'
    by_cases he : t' = t
    · subst he
      simp only [Function.update_self, saved, reduceCtorEq] at hk'
    · simp only [Function.update_of_ne he] at hk'
      rw [hmem]
      exact hi.saved t' k hk'
  · intro t'
    by_cases he : t' = t
    · subst he
      simp only [Function.update_self]
    · simp only [Function.update_of_ne he, Option.some.injEq]
      have h := hi.cur t'
      rw [hcur] at h
      exact ⟨fun hr => absurd (h.mp hr) nofun,fun hn => absurd hn.symm he⟩
  · intro t' n hn
    obtain ⟨h1,h2,hload⟩ := hi.links t' n hn
    refine ⟨alive_update t running_ne h1,alive_update t running_ne h2,?_⟩
    rw [hmem]
    exact hload

private theorem inv_switch (hi : Inv L s) {c n : T} (hcur : s.cur = some c) (hnext : s.next c = some n)
    (hcall : CallsSwitch L c s.cpu) (back : BitVec 64) :
    Inv L { s with
      cpu := (s.cpu.push back).exec coroutineSwitch, cur := some n,
      status := Function.update (Function.update s.status c (.parked ⟨s.cpu.regs,s.cpu.rflags,back⟩)) n .running } := by
  obtain ⟨k,hk⟩ := waiting hi hcur hnext
  obtain ⟨-,-,-,hsaved,hframe⟩ := switch_spec (hi.apart c n hnext).symm (hi.saved n k hk) hcall.rdi
    (rsi_eq hi hnext hcall) hcall.low hcall.high back
  refine ⟨?_,?_,hi.apart,?_⟩
  · intro t k' hk'
    by_cases htn : t = n
    · subst htn
      simp only [Function.update_self, saved, reduceCtorEq] at hk'
    · simp only [Function.update_of_ne htn] at hk'
      by_cases htc : t = c
      · subst htc
        simp only [Function.update_self, saved, Option.some.injEq] at hk'
        subst hk'
        exact hsaved
      · simp only [Function.update_of_ne htc] at hk'
        apply (hi.saved t k' hk').of_owns
        intro a ha
        exact hframe a (Layout.owns_apart htc ha)
  · intro t
    by_cases htn : t = n
    · subst htn
      simp only [Function.update_self]
    · simp only [Function.update_of_ne htn, Option.some.injEq]
      by_cases htc : t = c
      · subst htc
        simp only [Function.update_self]
        exact ⟨nofun,fun h => absurd h.symm htn⟩
      · simp only [Function.update_of_ne htc]
        have h := hi.cur t
        rw [hcur] at h
        exact ⟨fun hr => absurd (Option.some.inj (h.mp hr)).symm htc,fun h => absurd h.symm htn⟩
  · intro t n' hn'
    obtain ⟨h1,h2,hload⟩ := hi.links t n' hn'
    refine ⟨alive_update n running_ne (alive_update c parked_ne h1),
      alive_update n running_ne (alive_update c parked_ne h2),?_⟩
    rw [← hload]
    apply load_link
    intro a ha
    exact hframe a (Layout.link_not_owned ha)

theorem inv_step (hi : Inv L s) (hs : Step L s l s') : Inv L s' := by
  cases hs with
  | new h => exact inv_new hi h
  | setNext ht hn hne => exact inv_setNext hi ht hn hne
  | run hlinks hothers =>
    refine ⟨?_,hi.cur,hi.apart,?_⟩
    · intro t k hk
      apply (hi.saved t k hk).of_owns
      apply hothers t (alive_of_saved hk)
      intro hc
      exact not_running_of_saved hk ((hi.cur t).mpr hc)
    · intro t n hn
      obtain ⟨h1,h2,hload⟩ := hi.links t n hn
      exact ⟨h1,h2,(load_link (hlinks t h1)).trans hload⟩
  | start hcur ht hrdi => exact inv_start hi hcur ht hrdi
  | switch hcur hnext hcall => exact inv_switch hi hcur hnext hcall _

theorem inv_reachable (h : (system L).Reachable s) : Inv L s := by
  apply h.invariant
  · rintro s ⟨hcur,habs⟩
    refine ⟨?_,?_,?_,?_⟩
    · intro t k hk
      rw [(habs t).1] at hk
      cases hk
    · intro t
      rw [(habs t).1,hcur]
      exact ⟨nofun,nofun⟩
    · intro t n hn
      rw [(habs t).2] at hn
      cases hn
    · intro t n hn
      rw [(habs t).2] at hn
      cases hn
  · intro s l s' hi hs
    exact inv_step hi hs

/-- What a switch resumes, and in which context. -/
theorem resumes (hi : Inv L s) {c n : T} {back : BitVec 64} (hcur : s.cur = some c) (hnext : s.next c = some n)
    (hs : Step L s (.switch back) s') :
    s'.cur = some n ∧ s'.status c = .parked ⟨s.cpu.regs,s.cpu.rflags,back⟩ ∧
      ∀ k, saved L n (s.status n) = some k →
        s'.cpu.regs = k.regs ∧ s'.cpu.rflags = k.rflags ∧ s'.cpu.rip = k.rip := by
  cases hs with
  | switch hcur' hnext' hcall =>
    obtain rfl := Option.some.inj (hcur.symm.trans hcur')
    obtain rfl := Option.some.inj (hnext.symm.trans hnext')
    have hne : c ≠ n := hi.apart c n hnext
    refine ⟨rfl,?_,?_⟩
    · change Function.update (Function.update s.status c _) n _ c = _
      rw [Function.update_of_ne hne,Function.update_self]
    · intro k hk
      have h := switch_spec hne.symm (hi.saved n k hk) hcall.rdi (rsi_eq hi hnext hcall) hcall.low hcall.high back
      exact ⟨h.1,h.2.1,h.2.2.1⟩

/-- Each switch goes on along the links; a coroutine that waits and is not switched to stays as it is. -/
private theorem links_step (hi : Inv L s) {b : T} (hcur : s.cur = some b) (hl : l.relinks = false) (hs : Step L s l s') :
    s'.next = s.next ∧ ∃ b', follow s.next (if l.isSwitch then 1 else 0) b = some b' ∧ s'.cur = some b' ∧
      ∀ t k, s.status t = .parked k → t ≠ b' → s'.status t = .parked k := by
  cases hs with
  | @new t h =>
    refine ⟨rfl,b,rfl,hcur,?_⟩
    intro t' k hk _
    refine (Function.update_of_ne ?_ _ _).trans hk
    rintro rfl
    rw [h] at hk
    cases hk
  | setNext ht hn hne => cases hl
  | run hlinks hothers => exact ⟨rfl,b,rfl,hcur,fun _ _ hk _ => hk⟩
  | start hnone ht hrdi =>
    rw [hcur] at hnone
    cases hnone
  | @switch c n back hcur' hnext hcall =>
    obtain rfl := Option.some.inj (hcur.symm.trans hcur')
    refine ⟨rfl,n,?_,rfl,?_⟩
    · change (s.next b).bind _ = _
      rw [hnext]
      rfl
    · intro t k hk htn
      have htb : t ≠ b := by
        rintro rfl
        rw [(hi.cur t).mpr hcur] at hk
        cases hk
      exact (Function.update_of_ne htn _ _).trans ((Function.update_of_ne htb _ _).trans hk)

end

theorem follow_add {next : T → Option T} {i j : Nat} {c b : T} (h : follow next i c = some b) :
    follow next (i + j) c = follow next j b := by
  induction i generalizing c with
  | zero =>
    obtain rfl := Option.some.inj h
    rw [Nat.zero_add]
  | succ i ih =>
    rw [follow] at h
    obtain ⟨c',hc',h⟩ := Option.bind_eq_some_iff.mp h
    rw [show i + 1 + j = i + j + 1 by omega,follow,hc']
    exact ih h

section
variable [DecidableEq T]

/-- A run that leaves the links as they are follows them switch by switch. -/
private theorem links_run {ls : List (Label T)} {b : T} (hi : Inv L s) (hr : (system L).Run s ls s')
    (hcur : s.cur = some b) (hl : ∀ l ∈ ls, l.relinks = false) :
    s'.next = s.next ∧ s'.cur = follow s.next (ls.countP Label.isSwitch) b ∧
      ∀ t k, s.status t = .parked k → (∀ j, j ≤ ls.countP Label.isSwitch → follow s.next j b ≠ some t) →
        s'.status t = .parked k := by
  induction hr generalizing b with
  | nil => exact ⟨rfl,hcur,fun _ _ hk _ => hk⟩
  | @cons s s₁ s' l ls hs hr ih =>
    obtain ⟨hnext,b',hb',hcur',hstay⟩ := links_step hi hcur (hl l List.mem_cons_self) hs
    obtain ⟨h1,h2,h3⟩ := ih (inv_step hi hs) hcur' fun l' hm => hl l' (List.mem_cons_of_mem _ hm)
    have hcount : (l :: ls).countP Label.isSwitch = (if l.isSwitch then 1 else 0) + ls.countP Label.isSwitch := by
      rw [List.countP_cons,Nat.add_comm]
    rw [hnext] at h1 h2 h3
    refine ⟨h1,?_,?_⟩
    · rw [h2,hcount,follow_add hb']
    · intro t k hk hout
      apply h3 t k (hstay t k hk _)
      · intro j hj
        rw [← follow_add hb']
        exact hout _ (by rw [hcount]; omega)
      · rintro rfl
        exact hout _ (by rw [hcount]; omega) hb'

/-- A coroutine is at its very beginning: in `kickoff` with its own address, interrupts disabled and an empty stack. -/
structure Entered (L : Layout T) (n : T) (cpu : Cpu) : Prop where
  rip : cpu.rip = L.kickoff
  rdi : cpu.regs .rdi = L.coroutine n
  interrupts : cpu.rflags.getLsbD 9 = false
  rsp : (cpu.regs .rsp).toNat = L.stack n + 8 * L.length n

omit [DecidableEq T] in
private theorem entered_of_initial {n : T} {cpu : Cpu} (hregs : cpu.regs = (initial L n).regs)
    (hflags : cpu.rflags = (initial L n).rflags) (hrip : cpu.rip = (initial L n).rip) : Entered L n cpu := by
  refine ⟨hrip,?_,?_,?_⟩
  · rw [hregs]
    rfl
  · rw [hflags]
    change (2 : BitVec 64).getLsbD 9 = false
    decide
  · rw [hregs,initial_rsp]

/-- Whatever gives a coroutine the processor for the first time, `start` or a switch, enters it at its beginning. -/
theorem first_entry (hi : Inv L s) (hs : Step L s l s') {n : T} (hfresh : s.status n = .fresh)
    (hcur : s'.cur = some n) : Entered L n s'.cpu := by
  have hidle : s.cur ≠ some n := by
    intro h
    rw [(hi.cur n).mpr h] at hfresh
    cases hfresh
  have hsaved : saved L n (s.status n) = some (initial L n) := by
    rw [hfresh]
    rfl
  cases hs with
  | new h => exact absurd hcur hidle
  | setNext ht hn hne => exact absurd hcur hidle
  | run hlinks hothers => exact absurd hcur hidle
  | start hnone ht hrdi =>
    obtain rfl := Option.some.inj hcur
    obtain ⟨hregs,hflags,hrip,-⟩ := start_spec (hi.saved _ _ hsaved) hrdi
    exact entered_of_initial hregs hflags hrip
  | switch hcur' hnext hcall =>
    obtain rfl := Option.some.inj hcur
    obtain ⟨-,-,hresume⟩ := resumes hi hcur' hnext (.switch hcur' hnext hcall)
    obtain ⟨hregs,hflags,hrip⟩ := hresume _ hsaved
    exact entered_of_initial hregs hflags hrip

/-- In every run, a coroutine that has not run yet is entered at its beginning, whether by `start` or by a switch,
along whatever links. A switch hands the processor along the links: in a ring of `k` coroutines, one that calls `switch`
does not have it after fewer than `k` switches, and gets it back with the `k`-th one, with the registers, flags, stack
pointer and return address of its call. -/
theorem ring_transparent (L : Layout T) {s : State T} (hs : (system L).Reachable s) :
    (∀ l s' n, (system L).step s l s' → s.status n = .fresh → s'.cur = some n → Entered L n s'.cpu) ∧
    ∀ c k back s₁ ls s₂, s.cur = some c → IsRing s.next c k → (system L).step s (.switch back) s₁ →
      (system L).Run s₁ ls s₂ → (∀ l ∈ ls, l.relinks = false) → ls.countP Label.isSwitch + 2 ≤ k →
        s₂.cur = follow s.next (ls.countP Label.isSwitch + 1) c ∧ s₂.cur ≠ some c ∧
        ∀ back' s₃, (system L).step s₂ (.switch back') s₃ → ls.countP Label.isSwitch + 2 = k →
          s₃.cur = some c ∧ s₃.cpu.regs = s.cpu.regs ∧ s₃.cpu.rflags = s.cpu.rflags ∧ s₃.cpu.rip = back := by
  have hi := inv_reachable hs
  refine ⟨fun l s' n hstep => first_entry hi hstep,?_⟩
  intro c k back s₁ ls s₂ hcur hring hfirst hrun hlinks hcount
  obtain ⟨n,hn⟩ : ∃ n, s.next c = some n := by
    cases hfirst with
    | switch hcur' hnext hcall =>
      obtain rfl := Option.some.inj (hcur.symm.trans hcur')
      exact ⟨_,hnext⟩
  have hone : follow s.next 1 c = some n := by
    rw [follow,hn]
    rfl
  obtain ⟨hcur₁,hparked,-⟩ := resumes hi hcur hn hfirst
  have hi₁ := inv_step hi hfirst
  have hnext₁ : s₁.next = s.next := by
    cases hfirst with
    | switch => rfl
  obtain ⟨hnext₂,hcur₂,hstay⟩ := links_run hi₁ hrun hcur₁ hlinks
  rw [hnext₁] at hnext₂ hcur₂ hstay
  have hbefore : s₂.cur = follow s.next (ls.countP Label.isSwitch + 1) c := by
    rw [hcur₂,← follow_add hone,Nat.add_comm]
  refine ⟨hbefore,?_,?_⟩
  · rw [hbefore]
    exact hring.first _ (by omega) (by omega)
  · intro back' s₃ hlast hk
    have hout : ∀ j, j ≤ ls.countP Label.isSwitch → follow s.next j n ≠ some c := by
      intro j hj
      rw [← follow_add hone]
      exact hring.first _ (by omega) (by omega)
    have hi₂ : Inv L s₂ := hrun.invariant (fun _ _ _ => inv_step) hi₁
    obtain ⟨b,hb⟩ : ∃ b, s₂.cur = some b := by
      cases hlast with
      | switch hcur' => exact ⟨_,hcur'⟩
    have hclosed : s₂.next b = some c := by
      have h := hring.closed
      rw [← hk,show ls.countP Label.isSwitch + 2 = (ls.countP Label.isSwitch + 1) + 1 from rfl,
        follow_add (hbefore.symm.trans hb),follow] at h
      obtain ⟨b',hb',h⟩ := Option.bind_eq_some_iff.mp h
      obtain rfl := Option.some.inj h
      rw [hnext₂]
      exact hb'
    obtain ⟨hcur₃,-,hback⟩ := resumes hi₂ hb hclosed hlast
    have hsaved : saved L c (s₂.status c) = some ⟨s.cpu.regs,s.cpu.rflags,back⟩ := by
      rw [hstay c _ hparked hout]
      rfl
    exact ⟨hcur₃,hback _ hsaved⟩

end

/-- The processor about to call `Coroutine::switch` from `c`. -/
private def calling (L : Layout T) (c : T) (s : Cpu) : Cpu :=
  { s with regs := fun
      | .rdi => L.stackPtr c
      | .rsi => BitVec.ofNat 64 (s.mem.load
          (BitVec.ofNat 64 (s.mem.load (L.next c).toNat 8) + BitVec.ofNat 64 L.stackPtrOffset).toNat 8)
      | .rsp => BitVec.ofNat 64 (L.stack c + 8 * 18)
      | _ => 0 }

private theorem callsSwitch_calling (c : T) (s : Cpu) : CallsSwitch L c (calling L c s) := by
  have hbound := L.stack_bounded c
  have hlen : 65536 ≤ L.length c := L.capacity c
  have hrsp : ((calling L c s).regs .rsp).toNat = L.stack c + 8 * 18 := by
    change (BitVec.ofNat 64 _).toNat = _
    rw [BitVec.toNat_ofNat,Nat.mod_eq_of_lt (by omega)]
  refine ⟨rfl,?_,hrsp.ge,hrsp.trans_le (by omega)⟩
  change (BitVec.ofNat 64 _).toNat = _
  rw [BitVec.toNat_ofNat]
  exact Nat.mod_eq_of_lt (Bytes.load_lt _ _ _)

section
variable [DecidableEq T]

/-- A coroutine can be switched from whenever its link leads to another one. -/
private theorem switched {c n : T} (hcur : s.cur = some c) (hnext : s.next c = some n) (back : BitVec 64) :
    ∃ s₁ s₂, (system L).step s .run s₁ ∧ (system L).step s₁ (.switch back) s₂ ∧ s₁.cur = some c ∧
      s₁.next = s.next ∧ s₁.status = s.status ∧ s₂.cur = some n ∧ s₂.next = s.next :=
  ⟨{ s with cpu := calling L c s.cpu },_,.run (fun _ _ _ _ => rfl) fun _ _ _ _ _ => rfl,
    .switch hcur hnext (callsSwitch_calling c s.cpu),hcur,rfl,rfl,rfl,rfl⟩

end

/-- Two coroutines with boxes of 80 bytes and stacks of 512 KiB. -/
def twoCoroutines : Layout Bool where
  stack t := if t then 0x280000 else 0x200000
  length _ := Switch.stackSize / 8
  coroutine t := if t then 0x2000 else 0x1000
  size := 80
  stackPtrOffset := 32
  nextOffset := 48
  kickoff := 0x8000
  capacity _ := Nat.le_refl _
  stack_bounded t := by cases t <;> decide
  box_bounded t := by cases t <;> decide
  stackPtr_le := by decide
  next_le := by decide
  fields_apart := by decide
  stacks_apart t t' := by cases t <;> cases t' <;> decide
  boxes_apart t t' := by cases t <;> cases t' <;> decide
  box_stack_apart t t' := by cases t <;> cases t' <;> decide

section
variable [DecidableEq T]

private theorem created {t : T} (h : (system L).Reachable s) (ht : s.status t = .absent) :
    ∃ s', (system L).Reachable s' ∧ s'.cur = s.cur ∧ s'.status = Function.update s.status t .fresh ∧ s'.next = s.next :=
  ⟨_,h.step (.new ht),rfl,rfl,rfl⟩

private theorem linked {t n : T} (h : (system L).Reachable s) (ht : s.Alive t) (hn : s.Alive n) (hne : t ≠ n) :
    ∃ s', (system L).Reachable s' ∧ s'.cur = s.cur ∧ s'.status = s.status ∧
      s'.next = Function.update s.next t (some n) := ⟨_,h.step (.setNext ht hn hne),rfl,rfl,rfl⟩

private theorem started {t : T} (h : (system L).Reachable s) (hcur : s.cur = none) (ht : s.status t = .fresh) :
    ∃ s', (system L).Reachable s' ∧ s'.cur = some t ∧ s'.status = Function.update s.status t .running ∧
      s'.next = s.next := by
  have hrdi : ((s.cpu.set .rdi (BitVec.ofNat 64 (s.cpu.mem.load (L.stackPtr t).toNat 8))).regs .rdi).toNat =
      s.cpu.mem.load (L.stackPtr t).toNat 8 := by
    rw [Cpu.set_self,BitVec.toNat_ofNat]
    exact Nat.mod_eq_of_lt (Bytes.load_lt _ _ _)
  have hrun : (system L).step s .run
      { s with cpu := s.cpu.set .rdi (BitVec.ofNat 64 (s.cpu.mem.load (L.stackPtr t).toNat 8)) } :=
    .run (fun _ _ _ _ => rfl) fun _ _ _ _ _ => rfl
  exact ⟨_,(h.step hrun).step (.start hcur ht hrdi),rfl,rfl,rfl⟩

end

/-- Two coroutines linked to each other, the first of which has been started. -/
private theorem demo : ∃ s : State Bool, (system twoCoroutines).Reachable s ∧ s.cur = some false ∧
    s.next = Function.update (Function.update (fun _ => none) false (some true)) true (some false) ∧
    s.status true = .fresh := by
  let z : State Bool := ⟨⟨fun _ => 0,2,0,fun _ => 0⟩,none,fun _ => .absent,fun _ => none⟩
  have hz : (system twoCoroutines).Reachable z := .of_init ⟨rfl,fun _ => ⟨rfl,rfl⟩⟩
  obtain ⟨a,ha,haCur,haStatus,haNext⟩ := created hz (show z.status false = .absent from rfl)
  obtain ⟨b,hb,hbCur,hbStatus,hbNext⟩ := created ha (show a.status true = .absent by rw [haStatus]; rfl)
  have hstatus : b.status false = .fresh ∧ b.status true = .fresh := by
    rw [hbStatus,haStatus]
    exact ⟨rfl,rfl⟩
  have halive : b.Alive false ∧ b.Alive true := by
    rw [State.Alive,State.Alive,hstatus.1,hstatus.2]
    exact ⟨fresh_ne,fresh_ne⟩
  obtain ⟨c,hc,hcCur,hcStatus,hcNext⟩ := linked hb halive.1 halive.2 (by decide)
  obtain ⟨d,hd,hdCur,hdStatus,hdNext⟩ := linked (t := true) (n := false) hc (by rw [State.Alive,hcStatus]; exact halive.2)
    (by rw [State.Alive,hcStatus]; exact halive.1) (by decide)
  obtain ⟨e,he,heCur,heStatus,heNext⟩ := started hd (show d.cur = none by rw [hdCur,hcCur,hbCur,haCur])
    (show d.status false = .fresh by rw [hdStatus,hcStatus,hstatus.1])
  refine ⟨e,he,heCur,?_,?_⟩
  · rw [heNext,hdNext,hcNext,hbNext,haNext]
  · rw [heStatus,hdStatus,hcStatus,Function.update_of_ne (by decide),hstatus.2]

/-- In a ring of two, the second coroutine starts and hands the processor back to the first one. -/
theorem ring_transparent_sample : ∃ s s₁ s₂ s₃ : State Bool, (system twoCoroutines).Reachable s ∧
    s.cur = some false ∧ (system twoCoroutines).step s (.switch 7) s₁ ∧ s₁.cpu.rip = 0x8000 ∧
      (system twoCoroutines).step s₂ (.switch 9) s₃ ∧ s₃.cpu.regs = s.cpu.regs ∧ s₃.cpu.rip = 7 := by
  obtain ⟨r,hr,hcur,hnext,hfresh⟩ := demo
  obtain ⟨s,s₁,hrun,hfirst,hcurS,hnextS,hstatusS,hcur₁,hnext₁⟩ :=
    switched (L := twoCoroutines) hcur (show r.next false = some true by rw [hnext]; rfl) 7
  obtain ⟨s₂,s₃,hrun',hlast,-⟩ :=
    switched (L := twoCoroutines) hcur₁ (show s₁.next true = some false by rw [hnext₁,hnext]; rfl) 9
  have hs := hr.step hrun
  have hring : IsRing s.next false 2 := by
    rw [hnextS,hnext]
    refine ⟨rfl,?_⟩
    intro j h1 h2
    obtain rfl : j = 1 := by omega
    decide
  obtain ⟨hentered,hback⟩ := ring_transparent twoCoroutines hs
  have hfresh' : s.status true = .fresh := by rw [hstatusS,hfresh]
  have hkick := (hentered _ _ true hfirst hfresh' hcur₁).rip
  obtain ⟨-,-,h⟩ := hback false 2 7 s₁ [.run] s₂ hcurS hring hfirst (.cons hrun' (.nil _)) (by simp [Label.relinks]) le_rfl
  obtain ⟨-,hregs,-,hrip⟩ := h 9 s₃ hlast rfl
  exact ⟨s,s₁,s₂,s₃,hs,hcurS,hfirst,hkick,hlast,hregs,hrip⟩

end HeineOS.Coroutine
