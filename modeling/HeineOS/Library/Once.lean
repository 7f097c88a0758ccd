import HeineOS.Lib.System
import Mathlib.Logic.Function.Basic

/-! `Once` under any interleaving of its callers. The flag is set before the value is written, so a
caller that looks at the flag in between gets a reference to an uninitialised value. -/
namespace HeineOS
open Lib

/-- Where a call of `init` or `get` stands. A returned reference is recorded with what the value
was when it was read. -/
inductive OncePc (α : Type) where
  | init (closure : α)
  | get
  | run (closure : α)
  | write (v : α)
  | read
  | returned (seen : Option α)
  | none
  deriving DecidableEq

/-- The flag, the value, which is `none` while it is uninitialised, the calls, and how often a
closure has run. -/
structure Once (α : Type) where
  initialized : Bool
  value : Option α
  pc : Nat → OncePc α
  runs : Nat

namespace Once
variable {α : Type}

def setPc (s : Once α) (i : Nat) (pc : OncePc α) : Once α := { s with pc := Function.update s.pc i pc }

/-- The next step of call `i`. -/
def exec (s : Once α) (i : Nat) : Option (Once α) :=
  match s.pc i with
  | .init closure =>
    if s.initialized then some (s.setPc i .read)
    else some ({ s with initialized := true }.setPc i (.run closure))
  | .get => if s.initialized then some (s.setPc i .read) else some (s.setPc i .none)
  | .run closure => some ({ s with runs := s.runs + 1 }.setPc i (.write closure))
  | .write v => some ({ s with value := some v }.setPc i .read)
  | .read => some (s.setPc i (.returned s.value))
  | .returned _ => none
  | .none => none

/-- The call has not looked at the flag yet. -/
def waiting : OncePc α → Bool
  | .init _ | .get => true
  | _ => false

/-- Any number of calls, in any order of their steps. -/
def system : System (Once α) Nat where
  init s := s.initialized = false ∧ s.value = none ∧ s.runs = 0 ∧ ∀ i, waiting (s.pc i) = true
  step s i s' := s.exec i = some s'

/-- The closure has run at most once, and every returned reference was read after the value was
written and shows that value. -/
def Published (s : Once α) : Prop :=
  s.runs ≤ 1 ∧ ∀ i seen, s.pc i = .returned seen → ∃ v, seen = some v ∧ s.value = some v

/-- The call has won the swap and has not written the value yet. -/
def busy : OncePc α → Bool
  | .run _ | .write _ => true
  | _ => false

/-- No call looks at the flag while another has yet to write the value. -/
def Undisturbed (s : Once α) (i : Nat) : Prop := waiting (s.pc i) = true → ∀ j, busy (s.pc j) = false

/-- Before the swap, or back without a value. -/
def quiet : OncePc α → Bool
  | .init _ | .get | .none => true
  | _ => false

/-- The stages of an initialisation that nobody disturbs. -/
inductive Stage (s : Once α) : Prop where
  | fresh (hi : s.initialized = false) (hv : s.value = none) (hr : s.runs = 0)
      (hq : ∀ i, quiet (s.pc i) = true)
  | started (w : Nat) (closure : α) (hi : s.initialized = true) (hv : s.value = none) (hr : s.runs = 0)
      (hw : s.pc w = .run closure) (hq : ∀ i, i ≠ w → quiet (s.pc i) = true)
  | computed (w : Nat) (v : α) (hi : s.initialized = true) (hv : s.value = none) (hr : s.runs = 1)
      (hw : s.pc w = .write v) (hq : ∀ i, i ≠ w → quiet (s.pc i) = true)
  | written (v : α) (hi : s.initialized = true) (hv : s.value = some v) (hr : s.runs = 1)
      (hq : ∀ i, busy (s.pc i) = false) (hs : ∀ i seen, s.pc i = .returned seen → seen = some v)

theorem setPc_same (s : Once α) (i : Nat) (pc : OncePc α) : (s.setPc i pc).pc i = pc :=
  Function.update_self _ _ _

theorem setPc_ne (s : Once α) {i j : Nat} (h : j ≠ i) (pc : OncePc α) : (s.setPc i pc).pc j = s.pc j :=
  Function.update_of_ne h _ _

/-- What holds of the other calls and of the new program counter holds of all calls. -/
theorem setPc_forall {P : OncePc α → Prop} {s : Once α} {i : Nat} {pc : OncePc α} (hpc : P pc)
    (h : ∀ j, j ≠ i → P (s.pc j)) (j : Nat) : P ((s.setPc i pc).pc j) := by
  by_cases hj : j = i
  · rw [hj,setPc_same]
    exact hpc
  · rw [setPc_ne _ hj]
    exact h j hj

namespace Stage
variable {s s' : Once α} {i : Nat}

theorem step_waiting (h : Stage s) (hw : waiting (s.pc i) = true) (hu : Undisturbed s i)
    (he : s.exec i = some s') : Stage s' := by
  have hidle := hu hw
  cases h with
  | started w closure _ _ _ hpc _ =>
    have := hidle w
    rw [hpc] at this
    cases this
  | computed w v _ _ _ hpc _ =>
    have := hidle w
    rw [hpc] at this
    cases this
  | fresh hi hv hr hq =>
    cases hpc : s.pc i with
    | init closure =>
      simp only [exec, hpc, hi, Bool.false_eq_true, if_false, Option.some.injEq] at he
      subst he
      exact .started i closure rfl hv hr (setPc_same _ _ _) fun j hj => by rw [setPc_ne _ hj]; exact hq j
    | get =>
      simp only [exec, hpc, hi, Bool.false_eq_true, if_false, Option.some.injEq] at he
      subst he
      exact .fresh hi hv hr (setPc_forall (P := fun pc => quiet pc = true) rfl fun j _ => hq j)
    | _ => rw [hpc] at hw; cases hw
  | written v hi hv hr hq hs =>
    have he' : s' = s.setPc i .read := by
      cases hpc : s.pc i with
      | init closure | get =>
        simp only [exec, hpc, hi, if_true, Option.some.injEq] at he
        exact he.symm
      | _ => rw [hpc] at hw; cases hw
    subst he'
    refine .written v hi hv hr (setPc_forall (P := fun pc => busy pc = false) rfl fun j _ => hq j) ?_
    intro j
    exact setPc_forall (P := fun pc => ∀ seen, pc = .returned seen → seen = some v) (by simp)
      (fun j _ => hs j) j

private theorem exec_quiet (hq : quiet (s.pc i) = true) (hw : waiting (s.pc i) = false) :
    s.exec i = none := by
  cases hpc : s.pc i with
  | none => rw [exec,hpc]
  | init closure | get => rw [hpc] at hw; cases hw
  | _ => rw [hpc] at hq; cases hq

theorem step_other (h : Stage s) (hw : waiting (s.pc i) = false) (he : s.exec i = some s') : Stage s' := by
  cases h with
  | fresh hi hv hr hq =>
    rw [exec_quiet (hq i) hw] at he
    cases he
  | started w closure hi hv hr hpc hq =>
    by_cases hiw : i = w
    · subst hiw
      simp only [exec, hpc, Option.some.injEq] at he
      subst he
      refine .computed i closure hi hv ?_ (setPc_same _ _ _) fun j hj => by rw [setPc_ne _ hj]; exact hq j hj
      simp only [setPc, hr]
    · rw [exec_quiet (hq i hiw) hw] at he
      cases he
  | computed w v hi hv hr hpc hq =>
    by_cases hiw : i = w
    · subst hiw
      simp only [exec, hpc, Option.some.injEq] at he
      subst he
      have hcalm : ∀ pc : OncePc α, quiet pc = true → busy pc = false ∧ ∀ seen, pc ≠ .returned seen := by
        intro pc hpc
        cases pc with
        | init closure | get | none => exact ⟨rfl,fun _ h => by cases h⟩
        | _ => cases hpc
      refine .written v hi rfl hr ?_ ?_
      · exact setPc_forall (P := fun pc => busy pc = false) rfl fun j hj => (hcalm _ (hq j hj)).1
      · intro j
        exact setPc_forall (P := fun pc => ∀ seen, pc = .returned seen → seen = some v) (by simp)
          (fun j hj seen hs => absurd hs ((hcalm _ (hq j hj)).2 seen)) j
    · rw [exec_quiet (hq i hiw) hw] at he
      cases he
  | written v hi hv hr hq hs =>
    have hb := hq i
    cases hpc : s.pc i with
    | init closure | get => rw [hpc] at hw; cases hw
    | run closure | write v => rw [hpc] at hb; cases hb
    | returned seen | none =>
      simp only [exec, hpc] at he
      cases he
    | read =>
      simp only [exec, hpc, hv, Option.some.injEq] at he
      subst he
      refine .written v hi hv hr (setPc_forall (P := fun pc => busy pc = false) rfl fun j _ => hq j) ?_
      intro j
      exact setPc_forall (P := fun pc => ∀ seen, pc = .returned seen → seen = some v)
        (by simp) (fun j _ => hs j) j

theorem published (h : Stage s) : Published s := by
  cases h with
  | fresh _ _ hr hq =>
    refine ⟨by omega,fun j seen hj => ?_⟩
    have := hq j
    rw [hj] at this
    cases this
  | started w closure _ _ hr hpc hq =>
    refine ⟨by omega,fun j seen hj => ?_⟩
    have hne : j ≠ w := fun he => by rw [he,hpc] at hj; cases hj
    have := hq j hne
    rw [hj] at this
    cases this
  | computed w v _ _ hr hpc hq =>
    refine ⟨by omega,fun j seen hj => ?_⟩
    have hne : j ≠ w := fun he => by rw [he,hpc] at hj; cases hj
    have := hq j hne
    rw [hj] at this
    cases this
  | written v _ hv hr _ hs => exact ⟨by omega,fun j seen hj => ⟨v,hs j seen hj,hv⟩⟩

/-- A call that looks at the flag during the initialisation returns an uninitialised value. -/
theorem disturbed (h : Stage s) (hd : ¬ Undisturbed s i) (he : s.exec i = some s') :
    ∃ s'', s'.exec i = some s'' ∧ ¬ Published s'' := by
  have hmid : s.initialized = true ∧ s.value = none := by
    by_contra hno
    refine hd fun _ j => ?_
    cases h with
    | fresh _ _ _ hq =>
      have := hq j
      cases hpc : s.pc j with
      | run closure | write v => rw [hpc] at this; cases this
      | _ => rfl
    | started _ _ hi hv => exact absurd ⟨hi,hv⟩ hno
    | computed _ _ hi hv => exact absurd ⟨hi,hv⟩ hno
    | written _ _ _ _ hq => exact hq j
  have hw : waiting (s.pc i) = true := by
    by_contra hno
    exact hd fun hw => absurd hw hno
  have he' : s' = s.setPc i .read := by
    cases hpc : s.pc i with
    | init closure | get =>
      simp only [exec, hpc, hmid.1, if_true, Option.some.injEq] at he
      exact he.symm
    | _ => rw [hpc] at hw; cases hw
  subst he'
  refine ⟨_,by rw [exec,setPc_same],fun hp => ?_⟩
  obtain ⟨v,hv,_⟩ := hp.2 i s.value (setPc_same _ _ _)
  rw [hmid.2] at hv
  cases hv

end Stage

theorem stage_reachable {s : Once α} (hr : (system.restrict Undisturbed).Reachable s) : Stage s := by
  refine hr.invariant (P := Stage) ?_ ?_
  · rintro s ⟨hi,hv,hr,hw⟩
    refine .fresh hi hv hr fun i => ?_
    have := hw i
    cases hpc : s.pc i with
    | init closure | get => rfl
    | _ => rw [hpc] at this; cases this
  · rintro s i s' h ⟨hu,he⟩
    by_cases hw : waiting (s.pc i) = true
    · exact h.step_waiting hw hu he
    · exact h.step_other (by simpa using hw) he

/-- As long as no call looks at the flag between the swap and the write of another, the closure
runs at most once and every returned reference shows the written value. A step that does look
there leads to a reference to the uninitialised value. -/
theorem once_publishes {s : Once α} (hr : (system.restrict Undisturbed).Reachable s) :
    Published s ∧ ∀ i s', system.step s i s' → ¬ Undisturbed s i →
      ∃ s'', system.step s' i s'' ∧ ¬ Published s'' :=
  ⟨(stage_reachable hr).published,fun _ _ he hd => (stage_reachable hr).disturbed hd he⟩

/-- Calls of `init` that have not begun, the first of them behind its swap, and when it has returned. -/
def sample : Once Nat := ⟨false,none,fun i => .init i,0⟩
def sampleStarted : Once Nat := { sample with initialized := true }.setPc 0 (.run 0)
def samplePublished : Once Nat :=
  ({ ({ sampleStarted with runs := 1 }.setPc 0 (.write 0)) with value := some 0 }.setPc 0 .read).setPc 0
    (.returned (some 0))

/-- The second call returns what the first one has written. If it looks at the flag before that, it returns a reference
to nothing. -/
theorem once_publishes_sample :
    (∃ s, (system.restrict Undisturbed).Reachable s ∧ s.pc 0 = .returned (some 0) ∧ s.pc 1 = .returned (some 0) ∧
      Published s) ∧
    ∃ s', system.step sampleStarted 1 s' ∧ ∃ s'', system.step s' 1 s'' ∧ ¬ Published s'' := by
  have hstarted : (system.restrict Undisturbed).Reachable sampleStarted :=
    .step (.of_init (s := sample) ⟨rfl,rfl,rfl,fun _ => rfl⟩) (a := 0) ⟨fun _ _ => rfl,rfl⟩
  have hpublished : (system.restrict Undisturbed).Reachable samplePublished :=
    ((hstarted.step (a := 0) ⟨nofun,rfl⟩).step (a := 0) ⟨nofun,rfl⟩).step (a := 0) ⟨nofun,rfl⟩
  have hidle (j : Nat) : busy (samplePublished.pc j) = false := by
    refine setPc_forall (P := fun pc => busy pc = false) rfl (fun j hj => ?_) j
    rw [setPc_ne _ hj]
    change busy ((Once.setPc _ 0 _).pc j) = false
    rw [setPc_ne _ hj]
    change busy ((Once.setPc _ 0 _).pc j) = false
    rw [setPc_ne _ hj]
    rfl
  have hreturned : (system.restrict Undisturbed).Reachable
      ((samplePublished.setPc 1 .read).setPc 1 (.returned (some 0))) :=
    (hpublished.step (a := 1) ⟨fun _ => hidle,rfl⟩).step (a := 1) ⟨nofun,rfl⟩
  refine ⟨⟨_,hreturned,rfl,rfl,(once_publishes hreturned).1⟩,_,rfl,?_⟩
  refine (once_publishes hstarted).2 1 _ rfl ?_
  intro h
  exact absurd (h rfl 0) nofun

/-- The second call of `init` returns between the swap of the first and its write. -/
theorem once_publishes_fails : ¬ ∀ s : Once Nat, system.Reachable s → Published s := by
  intro h
  have hr : system.Reachable ((sampleStarted.setPc 1 .read).setPc 1 (.returned none)) :=
    ⟨sample,[0,1,1],⟨rfl,rfl,rfl,fun _ => rfl⟩,.cons rfl (.cons rfl (.cons rfl (.nil _)))⟩
  obtain ⟨v,hv,_⟩ := (h _ hr).2 1 none rfl
  cases hv

end Once

end HeineOS
