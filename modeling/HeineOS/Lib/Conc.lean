import HeineOS.Lib.Program
import HeineOS.Lib.System
import Mathlib.Logic.Function.Basic

/-! Programs that run at the same time over a shared state, in an environment that changes it too. A protocol and
an invariant that its operations keep are enough for every interleaving. -/
namespace HeineOS.Lib
open Protocol

/-- The contexts `ι` perform operations on the shared state `σ`, whose outcome may depend on a choice in `κ`, and
the environment makes the moves `ε`. -/
structure Conc (ι κ ε σ : Type) {Op : Type} (Res : Op → Type) (Proc : Type) where
  perform : ι → κ → σ → (i : Op) → Option (Res i × σ)
  env : ε → σ → Option σ
  body : Proc → Program Res Proc Unit

/-- What is shared, and the code that every context has left. -/
structure Conf (ι σ : Type) {Op : Type} (Res : Op → Type) (Proc : Type) where
  shared : σ
  code : ι → Program Res Proc Unit

inductive Move (ι κ ε : Type) where
  | run (c : ι) (choice : κ)
  | env (e : ε)

namespace Conc
variable {ι κ ε σ Op V : Type} [DecidableEq ι] {Res : Op → Type} {Proc : Type}

def exec (T : Conc ι κ ε σ Res Proc) (s : Conf ι σ Res Proc) : Move ι κ ε → Option (Conf ι σ Res Proc)
  | .run c choice =>
    match s.code c with
    | .pure _ => none
    | .call p k => some { s with code := Function.update s.code c (T.body p >>= fun _ => k) }
    | .op i k =>
      match T.perform c choice s.shared i with
      | none => none
      | some (r,shared) => some ⟨shared,Function.update s.code c (k r)⟩
  | .env e =>
    match T.env e s.shared with
    | none => none
    | some shared => some { s with shared }

def system (T : Conc ι κ ε σ Res Proc) (init : Conf ι σ Res Proc → Prop) : System (Conf ι σ Res Proc) (Move ι κ ε) where
  init
  step s move s' := T.exec s move = some s'

theorem exec_op {T : Conc ι κ ε σ Res Proc} {s : Conf ι σ Res Proc} {c : ι} {choice : κ} {i : Op}
    {k : Res i → Program Res Proc Unit} {r : Res i} {shared : σ} (hk : s.code c = .op i k)
    (hp : T.perform c choice s.shared i = some (r,shared)) :
    T.exec s (.run c choice) = some ⟨shared,Function.update s.code c (k r)⟩ := by
  simp only [exec, hk, hp]

/-- Take the moves one after the other, as long as they pass a check. -/
def execAll (T : Conc ι κ ε σ Res Proc) (check : Conf ι σ Res Proc → Move ι κ ε → Bool) (s : Conf ι σ Res Proc) :
    List (Move ι κ ε) → Option (Conf ι σ Res Proc)
  | [] => some s
  | move :: moves =>
    if check s move then
      match T.exec s move with
      | none => none
      | some s' => T.execAll check s' moves
    else none

variable {T : Conc ι κ ε σ Res Proc} {init : Conf ι σ Res Proc → Prop} {s s' : Conf ι σ Res Proc}

theorem run_of_execAll {check : Conf ι σ Res Proc → Move ι κ ε → Bool} {moves : List (Move ι κ ε)}
    (h : T.execAll check s moves = some s') :
    ((T.system init).restrict fun s move => check s move = true).Run s moves s' := by
  induction moves generalizing s with
  | nil =>
    obtain rfl := Option.some.inj h
    exact .nil s
  | cons move moves ih =>
    rw [execAll] at h
    split at h
    · rename_i hc
      split at h
      · cases h
      · rename_i s'' hs
        exact .cons ⟨hc,hs⟩ (ih h)
    · cases h

/-- The contexts that make no move stay where they are. -/
theorem code_of_execAll {check : Conf ι σ Res Proc → Move ι κ ε → Bool} {moves : List (Move ι κ ε)} {c : ι}
    (h : T.execAll check s moves = some s') (hc : ∀ choice, .run c choice ∉ moves) : s'.code c = s.code c := by
  induction moves generalizing s with
  | nil => rw [Option.some.inj h]
  | cons move moves ih =>
    have hrest : ∀ choice, .run c choice ∉ moves := fun choice hm => hc choice (List.mem_cons_of_mem _ hm)
    rw [execAll] at h
    split at h
    · split at h
      · cases h
      · rename_i s'' hs
        rw [ih h hrest]
        cases move with
        | env e =>
          simp only [exec] at hs
          split at hs
          · cases hs
          · cases hs
            rfl
        | run c' choice =>
          have hne : c ≠ c' := by
            rintro rfl
            exact hc choice List.mem_cons_self
          simp only [exec] at hs
          split at hs
          · cases hs
          · cases hs
            exact Function.update_of_ne hne _ _
          · split at hs
            · cases hs
            · cases hs
              exact Function.update_of_ne hne _ _
    · cases h

/-- The operation that a context performs next. -/
def Next (s : Conf ι σ Res Proc) (c : ι) (i : Op) : Prop := ∃ k, s.code c = .op i k

/-- A move meets a condition on the operation that it performs, if it performs one, or on what the environment
does. -/
def Meets (cond : ι → κ → σ → Op → Prop) (envCond : ε → σ → Prop) (s : Conf ι σ Res Proc) : Move ι κ ε → Prop
  | .run c choice => ∀ i, Next s c i → cond c choice s.shared i
  | .env e => envCond e s.shared

/-- The operations that a protocol allows keep an invariant about the shared state and the local states, and so does
the environment, as long as they meet a condition. -/
structure Upholds (T : Conc ι κ ε σ Res Proc) (P : Protocol Res Proc V) (cond : ι → κ → σ → Op → Prop)
    (envCond : ε → σ → Prop) (I : σ → (ι → V) → Prop) : Prop where
  sound : P.Sound T.body
  op : ∀ {c choice s i r s' v}, I s v → P.allowed (v c) i → cond c choice s i →
    T.perform c choice s i = some (r,s') → ∃ w, P.next (v c) i r w ∧ I s' (Function.update v c w)
  env : ∀ {e s s' v}, I s v → envCond e s → T.env e s = some s' → I s' v

/-- Every context keeps to the protocol, and never ends. -/
def Keeping (P : Protocol Res Proc V) (I : σ → (ι → V) → Prop) (s : Conf ι σ Res Proc) (v : ι → V) : Prop :=
  I s.shared v ∧ ∀ c, P.Follows (fun _ _ => False) (v c) (s.code c)

theorem Upholds.step {P : Protocol Res Proc V} {cond : ι → κ → σ → Op → Prop} {envCond : ε → σ → Prop}
    {I : σ → (ι → V) → Prop} (h : T.Upholds P cond envCond I) {v : ι → V} (hs : Keeping P I s v)
    {move : Move ι κ ε} (hm : Meets cond envCond s move)
    (he : T.exec s move = some s') : ∃ v', Keeping P I s' v' := by
  obtain ⟨hI,hf⟩ := hs
  cases move with
  | env e =>
    simp only [exec] at he
    split at he
    · cases he
    · rename_i shared hp
      cases he
      exact ⟨v,h.env hI hm hp,hf⟩
  | run c choice =>
    have hothers : ∀ {x : Program Res Proc Unit} {w : V}, P.Follows (fun _ _ => False) w x →
        ∀ c', P.Follows (fun _ _ => False) (Function.update v c w c') (Function.update s.code c x c') := by
      intro x w hx c'
      by_cases hc : c' = c
      · subst hc
        rw [Function.update_self,Function.update_self]
        exact hx
      · rw [Function.update_of_ne hc,Function.update_of_ne hc]
        exact hf c'
    have hc := hf c
    simp only [exec] at he
    split at he
    · cases he
    · rename_i p k hcode
      cases he
      rw [hcode] at hc
      have hsame := hothers (Follows.unfold h.sound hc)
      rw [Function.update_eq_self] at hsame
      exact ⟨v,hI,hsame⟩
    · rename_i i k hcode
      split at he
      · cases he
      · rename_i r shared hp
        cases he
        rw [hcode] at hc
        obtain ⟨w,hn,hI'⟩ := h.op hI hc.1 (hm i ⟨k,hcode⟩) hp
        exact ⟨Function.update v c w,hI',hothers (hc.2 r w hn)⟩

/-- In a run whose moves meet the condition, the invariant holds in every state. -/
theorem Upholds.reachable {P : Protocol Res Proc V} {cond : ι → κ → σ → Op → Prop} {envCond : ε → σ → Prop}
    {I : σ → (ι → V) → Prop} (h : T.Upholds P cond envCond I) (hinit : ∀ s, init s → ∃ v, Keeping P I s v)
    (hr : ((T.system init).restrict (Meets cond envCond)).Reachable s) : ∃ v, Keeping P I s v := by
  apply hr.invariant (P := fun s => ∃ v, Keeping P I s v) hinit
  rintro s move s' ⟨v,hv⟩ ⟨hm,hs⟩
  exact h.step hv hm hs

/-- Without a condition, the invariant holds in every run. -/
theorem Upholds.always {P : Protocol Res Proc V} {I : σ → (ι → V) → Prop}
    (h : T.Upholds P (fun _ _ _ _ => True) (fun _ _ => True) I) (hinit : ∀ s, init s → ∃ v, Keeping P I s v)
    (hr : (T.system init).Reachable s) : ∃ v, Keeping P I s v := by
  apply hr.invariant (P := fun s => ∃ v, Keeping P I s v) hinit
  rintro s move s' ⟨v,hv⟩ hs
  refine h.step hv ?_ hs
  cases move with
  | run c choice => exact fun _ _ => trivial
  | env e => trivial

section Observed
variable {ω : Type} {watch : ι → σ → (i : Op) → Res i → ω → ω} {watchEnv : ε → σ → ω → ω}

/-- The same programs with an observer who sees every operation and its result, and what the environment does. -/
def observe (T : Conc ι κ ε σ Res Proc) (watch : ι → σ → (i : Op) → Res i → ω → ω) (watchEnv : ε → σ → ω → ω) :
    Conc ι κ ε (σ × ω) Res Proc where
  perform c choice s i := (T.perform c choice s.1 i).map fun r => (r.1,r.2,watch c s.1 i r.1 s.2)
  env e s := (T.env e s.1).map fun shared => (shared,watchEnv e s.1 s.2)
  body := T.body

/-- What the observer looks at. -/
def unobserved (s : Conf ι (σ × ω) Res Proc) : Conf ι σ Res Proc := ⟨s.shared.1,s.code⟩

/-- The observer does not interfere. -/
theorem exec_unobserved {s s' : Conf ι (σ × ω) Res Proc} {move : Move ι κ ε}
    (h : (T.observe watch watchEnv).exec s move = some s') : T.exec (unobserved s) move = some (unobserved s') := by
  obtain ⟨⟨shared,w⟩,code⟩ := s
  cases move with
  | env e =>
    cases hp : T.env e shared with
    | none => simp [exec, observe, hp] at h
    | some shared' =>
      simp only [exec, observe, hp, Option.map_some, Option.some.injEq] at h
      simp only [exec, unobserved, hp, ← h]
  | run c choice =>
    cases hk : code c with
    | pure a => simp [exec, hk] at h
    | call p k =>
      simp only [exec, observe, hk, Option.some.injEq] at h
      simp only [exec, unobserved, hk, ← h]
    | op i k =>
      cases hp : T.perform c choice shared i with
      | none => simp [exec, observe, hk, hp] at h
      | some r =>
        simp only [exec, observe, hk, hp, Option.map_some, Option.some.injEq] at h
        simp only [exec, unobserved, hk, hp, ← h]

theorem reachable_unobserved {init' : Conf ι (σ × ω) Res Proc → Prop} (hinit : ∀ s, init' s → init (unobserved s))
    {s : Conf ι (σ × ω) Res Proc} (h : ((T.observe watch watchEnv).system init').Reachable s) :
    (T.system init).Reachable (unobserved s) := by
  apply h.invariant (P := fun s => (T.system init).Reachable (unobserved s))
  · exact fun s hs => .of_init (hinit s hs)
  · exact fun s move s' hr hs => hr.step (exec_unobserved hs)

end Observed

end Conc

/-- A lock guards some data: at most one context is in a stage of its section, and none while the lock is free.
`At` says what the data is in a stage, and `rest` what it is when nobody is inside. -/
structure Guarded {ι G : Type} (locked : Bool) (rest : Prop) (At : G → Prop) (stage : ι → Option G) : Prop where
  locked : ∀ {c g}, stage c = some g → locked = true
  unique : ∀ {c c' g g'}, stage c = some g → stage c' = some g' → c = c'
  inside : ∀ {c g}, stage c = some g → At g
  rest : (∀ c, stage c = none) → rest

namespace Guarded
variable {ι G : Type} {b : Bool} {rest rest' : Prop} {At At' : G → Prop} {stage : ι → Option G}
  {c : ι} {g g' : G}

/-- Nobody is inside while the lock is free. -/
theorem outside (h : Guarded false rest At stage) (c : ι) : stage c = none := by
  cases hs : stage c with
  | none => rfl
  | some g => cases h.locked hs

/-- The data changes from outside. -/
theorem mono (h : Guarded b rest At stage) (hat : ∀ g, At g → At' g) (hrest : rest → rest') :
    Guarded b rest' At' stage :=
  ⟨h.locked,h.unique,fun hs => hat _ (h.inside hs),fun hnone => hrest (h.rest hnone)⟩

/-- What the data is, whoever is inside. -/
theorem data {P : Prop} (h : Guarded b rest At stage) (hat : ∀ g, At g → P) (hrest : rest → P) : P := by
  by_cases hnone : ∀ c, stage c = none
  · exact hrest (h.rest hnone)
  · obtain ⟨c,hc⟩ := not_forall.mp hnone
    obtain ⟨g,hg⟩ := Option.ne_none_iff_exists'.mp hc
    exact hat g (h.inside hg)

variable [DecidableEq ι]

theorem acquire (h : Guarded false rest At stage) (hat : rest → At' g) :
    Guarded true rest' At' (Function.update stage c (some g)) := by
  have hself : ∀ {c' g'}, Function.update stage c (some g) c' = some g' → c' = c ∧ g' = g := by
    intro c' g' hs
    by_cases hne : c' = c
    · rw [hne,Function.update_self] at hs
      exact ⟨hne,(Option.some.inj hs).symm⟩
    · rw [Function.update_of_ne hne,h.outside c'] at hs
      cases hs
  refine ⟨fun _ => rfl,?_,?_,?_⟩
  · intro c₁ c₂ g₁ g₂ h1 h2
    rw [(hself h1).1,(hself h2).1]
  · intro c' g' hs
    rw [(hself hs).2]
    exact hat (h.rest h.outside)
  · intro hnone
    have hc := hnone c
    rw [Function.update_self] at hc
    cases hc

/-- The one inside goes on. -/
theorem advance (h : Guarded b rest At stage) (hc : stage c = some g) (hat : At' g') :
    Guarded b rest' At' (Function.update stage c (some g')) := by
  have hself : ∀ {c' g''}, Function.update stage c (some g') c' = some g'' → c' = c ∧ g'' = g' := by
    intro c' g'' hs
    by_cases hne : c' = c
    · rw [hne,Function.update_self] at hs
      exact ⟨hne,(Option.some.inj hs).symm⟩
    · rw [Function.update_of_ne hne] at hs
      exact absurd (h.unique hs hc) hne
  refine ⟨fun _ => h.locked hc,?_,?_,?_⟩
  · intro c₁ c₂ g₁ g₂ h1 h2
    rw [(hself h1).1,(hself h2).1]
  · intro c' g'' hs
    rw [(hself hs).2]
    exact hat
  · intro hnone
    have hnone := hnone c
    rw [Function.update_self] at hnone
    cases hnone

theorem release (h : Guarded b rest At stage) (hc : stage c = some g) (hrest : rest') :
    Guarded false rest' At' (Function.update stage c none) := by
  have hnone : ∀ c', Function.update stage c none c' = none := by
    intro c'
    by_cases hne : c' = c
    · rw [hne,Function.update_self]
    · rw [Function.update_of_ne hne]
      cases hs : stage c' with
      | none => rfl
      | some g' => exact absurd (h.unique hs hc) hne
  refine ⟨?_,?_,?_,fun _ => hrest⟩
  · intro c' g' hs
    rw [hnone] at hs
    cases hs
  · intro c₁ c₂ g₁ g₂ h1
    rw [hnone] at h1
    cases h1
  · intro c' g' hs
    rw [hnone] at hs
    cases hs

end Guarded

end HeineOS.Lib
