import HeineOS.Lib.System
import Mathlib.Logic.Function.Basic

/-! Threads that update the cells of a memory in two steps: a cell is read in one step and written back in another.
When no write makes the reading of another thread stale, the calls take effect one after the other. -/
namespace HeineOS.Lib

/-- What a call does with its cell: put a value into it, or modify the value that it reads there. -/
inductive Change (α : Type) where
  | put (a : α)
  | modify (f : α → α)

def Change.apply {α : Type} : Change α → α → α
  | put a,_ => a
  | modify f,a => f a

/-- Calls `γ` on a memory `μ`, each on a cell that holds a value in `α`. -/
structure Cells (μ γ α : Type) where
  load : μ → γ → α
  store : μ → γ → α → μ
  change : γ → Change α
  load_store : ∀ m c a, load (store m c a) c = a

/-- The memory, the calls that each thread has left, what it has read for the first of them, and the calls that are
done. -/
structure Threads (ι μ γ α : Type) where
  memory : μ
  todo : ι → List γ
  data : ι → Option α
  done : List (ι × γ)

namespace Threads
variable {ι μ γ α : Type}

def init (m₀ : μ) (calls : ι → List γ) : Threads ι μ γ α := ⟨m₀,calls,fun _ => none,[]⟩

/-- The thread has read the cell of a call and not written it yet. -/
def Waits (s : Threads ι μ γ α) (t : ι) (c : γ) : Prop := ∃ calls, s.todo t = c :: calls ∧ s.data t ≠ none

end Threads

namespace Cells
variable {ι μ γ α : Type} [DecidableEq ι] (T : Cells μ γ α)

/-- A call in one step. -/
def exec (m : μ) (c : γ) : μ := T.store m c ((T.change c).apply (T.load m c))

/-- Calls one after another. -/
def execAll (m : μ) (calls : List γ) : μ := calls.foldl T.exec m

def read (s : Threads ι μ γ α) (t : ι) (c : γ) : Threads ι μ γ α :=
  { s with data := Function.update s.data t (some (T.load s.memory c)) }

/-- The write that ends a call. -/
def write (s : Threads ι μ γ α) (t : ι) (c : γ) (calls : List γ) (a : α) : Threads ι μ γ α where
  memory := T.store s.memory c a
  todo := Function.update s.todo t calls
  data := Function.update s.data t none
  done := s.done ++ [(t,c)]

def step (s : Threads ι μ γ α) (t : ι) : Option (Threads ι μ γ α) :=
  match s.todo t with
  | [] => none
  | c :: calls =>
    match T.change c,s.data t with
    | .put a,_ => some (T.write s t c calls a)
    | .modify _,none => some (T.read s t c)
    | .modify f,some a => some (T.write s t c calls (f a))

def system (m₀ : μ) (calls : ι → List γ) : System (Threads ι μ γ α) ι where
  init s := s = .init m₀ calls
  step s t s' := T.step s t = some s'

/-- The next step of the thread is the write of a call. -/
def Writes (s : Threads ι μ γ α) (t : ι) (c : γ) : Prop :=
  ∃ calls, s.todo t = c :: calls ∧ ∀ f, T.change c = .modify f → s.data t ≠ none

/-- The first call changes nothing that the second one keeps. -/
def Spares (m : μ) (c c' : γ) : Prop :=
  (T.change c').apply (T.load (T.exec m c) c') = (T.change c').apply (T.load m c')

/-- A write of the thread spares the calls that wait. -/
def StepSpares (s : Threads ι μ γ α) (t : ι) : Prop :=
  ∀ c, T.Writes s t c → ∀ t' ≠ t, ∀ c', s.Waits t' c' → T.Spares s.memory c c'

/-- The memory is that of the calls one after the other in the order in which they were done, each thread has its other
calls left, and what was read is as good as what is there. -/
structure Ordered (m₀ : μ) (calls : ι → List γ) (s : Threads ι μ γ α) : Prop where
  memory : s.memory = T.execAll m₀ (s.done.map Prod.snd)
  order : ∀ t, (s.done.filter (·.1 = t)).map Prod.snd ++ s.todo t = calls t
  fresh : ∀ t c cs a, s.todo t = c :: cs → s.data t = some a →
    (T.change c).apply a = (T.change c).apply (T.load s.memory c)

variable {T} {m₀ : μ} {calls : ι → List γ} {s s' : Threads ι μ γ α} {t : ι}

theorem execAll_concat (m : μ) (cs : List γ) (c : γ) : T.execAll m (cs ++ [c]) = T.exec (T.execAll m cs) c := by
  rw [execAll,List.foldl_append]
  rfl

theorem ordered_init : T.Ordered m₀ calls (.init m₀ calls) where
  memory := rfl
  order _ := rfl
  fresh := by
    intro t c cs a _ h
    exact nomatch h

/-- A write puts a value that is as good as that of the call in one step. -/
theorem step_of_writes (ho : T.Ordered m₀ calls s) {c : γ} (h : T.Writes s t c) :
    ∃ cs, s.todo t = c :: cs ∧ T.step s t = some (T.write s t c cs ((T.change c).apply (T.load s.memory c))) := by
  obtain ⟨cs,hc,hdata⟩ := h
  refine ⟨cs,hc,?_⟩
  rw [step,hc]
  cases hchange : T.change c with
  | put a => simp only [hchange, Change.apply]
  | modify f =>
    obtain ⟨a,ha⟩ := Option.ne_none_iff_exists'.mp (hdata f hchange)
    have hfresh := ho.fresh t c cs a hc ha
    rw [hchange] at hfresh
    rw [← hfresh]
    simp only [hchange, ha, Change.apply]

/-- A step reads the cell of a call, or writes it. -/
theorem step_cases (h : T.step s t = some s') :
    (∃ c cs, s.todo t = c :: cs ∧ s' = T.read s t c) ∨ ∃ c, T.Writes s t c := by
  rw [step] at h
  cases hc : s.todo t with
  | nil =>
    rw [hc] at h
    exact nomatch h
  | cons c cs =>
    cases hchange : T.change c with
    | put a =>
      refine .inr ⟨c,cs,hc,?_⟩
      intro f hf
      exact nomatch hchange.symm.trans hf
    | modify f =>
      cases hd : s.data t with
      | none =>
        simp only [hc, hchange, hd] at h
        exact .inl ⟨c,cs,rfl,(Option.some.inj h).symm⟩
      | some a =>
        refine .inr ⟨c,cs,hc,?_⟩
        intro _ _
        rw [hd]
        exact Option.some_ne_none a

private theorem ordered_read (ho : T.Ordered m₀ calls s) {c : γ} {cs : List γ} (hc : s.todo t = c :: cs) :
    T.Ordered m₀ calls (T.read s t c) where
  memory := ho.memory
  order := ho.order
  fresh := by
    intro t' c' cs' a hc' hd
    change s.todo t' = _ at hc'
    change Function.update s.data t _ t' = _ at hd
    by_cases ht : t' = t
    · rw [ht,hc] at hc'
      rw [ht,Function.update_self] at hd
      rw [← Option.some.inj hd,(List.cons.inj hc').1]
      rfl
    · rw [Function.update_of_ne ht] at hd
      exact ho.fresh t' c' cs' a hc' hd

private theorem write_memory (ho : T.Ordered m₀ calls s) (t : ι) (c : γ) (cs : List γ) :
    (T.write s t c cs ((T.change c).apply (T.load s.memory c))).memory =
      T.execAll m₀ ((s.done ++ [(t,c)]).map Prod.snd) := by
  change T.exec s.memory c = _
  rw [List.map_append,List.map_singleton,execAll_concat,ho.memory]

private theorem ordered_write (ho : T.Ordered m₀ calls s) {c : γ} {cs : List γ} (hc : s.todo t = c :: cs)
    (hspares : ∀ t' ≠ t, ∀ c', s.Waits t' c' → T.Spares s.memory c c') :
    T.Ordered m₀ calls (T.write s t c cs ((T.change c).apply (T.load s.memory c))) where
  memory := write_memory ho t c cs
  order := by
    intro t'
    have horder := ho.order t'
    change ((s.done ++ [(t,c)]).filter _).map _ ++ Function.update s.todo t cs t' = _
    rw [List.filter_append,List.map_append,List.append_assoc]
    by_cases ht : t' = t
    · rw [ht] at horder ⊢
      rw [Function.update_self,← horder,hc]
      simp
    · rw [Function.update_of_ne ht,← horder]
      simp [Ne.symm ht]
  fresh := by
    intro t' c' cs' a hc' hd
    change Function.update s.todo t cs t' = _ at hc'
    change Function.update s.data t none t' = _ at hd
    by_cases ht : t' = t
    · rw [ht,Function.update_self] at hd
      exact nomatch hd
    · rw [Function.update_of_ne ht] at hc' hd
      have hwaits : s.Waits t' c' := ⟨cs',hc',by rw [hd]; exact Option.some_ne_none a⟩
      rw [ho.fresh t' c' cs' a hc' hd]
      exact (hspares t' ht c' hwaits).symm

/-- A step that spares the calls that wait keeps the order. -/
theorem ordered_step (ho : T.Ordered m₀ calls s) (hspares : T.StepSpares s t) (h : T.step s t = some s') :
    T.Ordered m₀ calls s' := by
  rcases step_cases h with ⟨c,cs,hc,rfl⟩ | ⟨c,hwrites⟩
  · exact ordered_read ho hc
  · obtain ⟨cs,hc,hstep⟩ := step_of_writes ho hwrites
    rw [h,Option.some.injEq] at hstep
    rw [hstep]
    exact ordered_write ho hc (hspares c hwrites)

/-- In a run whose writes spare the calls that wait, the calls take effect one after the other. -/
theorem ordered_of_reachable (h : ((T.system m₀ calls).restrict T.StepSpares).Reachable s) : T.Ordered m₀ calls s := by
  apply h.invariant
  · intro s hs
    have hs : s = .init m₀ calls := hs
    rw [hs]
    exact ordered_init
  · intro s t s' ho hstep
    exact ordered_step ho hstep.1 hstep.2

/-- After a write that does not spare a call that waits, the write of that call undoes it. -/
theorem lost_of_not_spares (ho : T.Ordered m₀ calls s) (hnot : ¬ T.StepSpares s t) (h : T.step s t = some s') :
    ∃ t' s'', T.step s' t' = some s'' ∧ s''.memory ≠ T.execAll m₀ (s''.done.map Prod.snd) := by
  simp only [StepSpares, not_forall] at hnot
  obtain ⟨c,hwrites,t',ht,c',⟨cs',hc',hd'⟩,hloses⟩ := hnot
  obtain ⟨a,ha⟩ := Option.ne_none_iff_exists'.mp hd'
  have hfresh := ho.fresh t' c' cs' a hc' ha
  rw [Spares] at hloses
  cases hchange : T.change c' with
  | put b =>
    rw [hchange] at hloses
    exact absurd rfl hloses
  | modify f =>
    obtain ⟨cs,-,hstep⟩ := step_of_writes ho hwrites
    rw [h,Option.some.injEq] at hstep
    have htodo : s'.todo t' = c' :: cs' := by
      rw [hstep]
      exact (Function.update_of_ne ht _ _).trans hc'
    have hdata : s'.data t' = some a := by
      rw [hstep]
      exact (Function.update_of_ne ht _ _).trans ha
    have hmemory := write_memory ho t c cs
    rw [← hstep] at hmemory
    refine ⟨t',T.write s' t' c' cs' (f a),?_,?_⟩
    · rw [step,htodo]
      simp only [hchange, hdata]
    · intro heq
      have hdone : s'.done = s.done ++ [(t,c)] := by
        rw [hstep]
        rfl
      change T.store s'.memory c' (f a) = T.execAll m₀ ((s'.done ++ [(t',c')]).map Prod.snd) at heq
      rw [List.map_append,List.map_singleton,execAll_concat,hdone,← hmemory] at heq
      have hcell := congrArg (T.load · c') heq
      change T.load (T.store s'.memory c' (f a)) c' = T.load (T.store s'.memory c' _) c' at hcell
      rw [T.load_store,T.load_store] at hcell
      have hcurrent : s'.memory = T.exec s.memory c := by
        rw [hstep]
        rfl
      rw [hcurrent] at hcell
      rw [hchange] at hfresh hcell hloses
      exact hloses (hcell.symm.trans hfresh)

end Cells

end HeineOS.Lib
