/-! Labelled transition systems: runs, reachable states and the invariant rule. -/
namespace HeineOS.Lib

structure System (σ α : Type) where
  init : σ → Prop
  step : σ → α → σ → Prop

namespace System
variable {σ α : Type} {S : System σ α}

/-- `Run S s as t`: taking the steps labelled `as` leads from `s` to `t`. -/
inductive Run (S : System σ α) : σ → List α → σ → Prop where
  | nil (s : σ) : Run S s [] s
  | cons {s t u : σ} {a : α} {as : List α} : S.step s a t → Run S t as u → Run S s (a :: as) u

/-- States at the end of a run from an initial state. -/
def Reachable (S : System σ α) (s : σ) : Prop := ∃ s₀ as, S.init s₀ ∧ Run S s₀ as s

theorem Run.append {s t u : σ} {as bs : List α} (h : Run S s as t) (h' : Run S t bs u) :
    Run S s (as ++ bs) u := by
  induction h with
  | nil => exact h'
  | cons hs _ ih => exact .cons hs (ih h')

theorem Run.snoc {s t u : σ} {a : α} {as : List α} (h : Run S s as t) (hs : S.step t a u) :
    Run S s (as ++ [a]) u := h.append (.cons hs (.nil u))

theorem Reachable.of_init {s : σ} (h : S.init s) : Reachable S s := ⟨s,[],h,.nil s⟩

theorem Reachable.step {s t : σ} {a : α} (h : Reachable S s) (hs : S.step s a t) : Reachable S t := by
  obtain ⟨s₀,as,h₀,hr⟩ := h
  exact ⟨s₀,as ++ [a],h₀,hr.snoc hs⟩

/-- What every step keeps holds at the end of a run. -/
theorem Run.invariant {P : σ → Prop} (hstep : ∀ s a t, P s → S.step s a t → P t)
    {s t : σ} {as : List α} (hr : Run S s as t) (h : P s) : P t := by
  induction hr with
  | nil => exact h
  | cons hs _ ih => exact ih (hstep _ _ _ h hs)

/-- What holds initially and is kept by every step holds in every reachable state. -/
theorem Reachable.invariant {P : σ → Prop} (hinit : ∀ s, S.init s → P s)
    (hstep : ∀ s a t, P s → S.step s a t → P t) {s : σ} (h : Reachable S s) : P s := by
  obtain ⟨s₀,as,h₀,hr⟩ := h
  exact hr.invariant hstep (hinit s₀ h₀)

/-- The system whose steps also meet a condition on the state before the step. -/
def restrict (S : System σ α) (cond : σ → α → Prop) : System σ α where
  init := S.init
  step s a t := cond s a ∧ S.step s a t

theorem Reachable.of_restrict {cond : σ → α → Prop} {s : σ} (h : Reachable (S.restrict cond) s) :
    Reachable S s :=
  h.invariant (fun _ hi => .of_init hi) (fun _ _ _ hr hs => hr.step hs.2)

theorem Reachable.of_restrict_of {cond cond' : σ → α → Prop} (hc : ∀ s a, cond s a → cond' s a) {s : σ}
    (h : Reachable (S.restrict cond) s) : Reachable (S.restrict cond') s :=
  h.invariant (fun _ hi => .of_init hi) (fun _ _ _ hr hs => hr.step ⟨hc _ _ hs.1,hs.2⟩)

end System

end HeineOS.Lib
