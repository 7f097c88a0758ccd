import HeineOS.Lib.Conc

/-! Contexts that work through their jobs, each job in one section under one lock. -/
namespace HeineOS.Lib

section
variable {ι E J : Type} [DecidableEq ι] (context : E → ι) (job : E → J)

/-- The jobs of one context among the entries of all. -/
def doneBy (entries : List E) (c : ι) : List J := (entries.filter (context · = c)).map job

theorem doneBy_concat (entries : List E) (e : E) :
    doneBy context job (entries ++ [e]) =
      Function.update (doneBy context job entries) (context e) (doneBy context job entries (context e) ++ [job e]) := by
  funext c
  rw [doneBy,List.filter_append,List.map_append]
  by_cases hc : context e = c
  · subst hc
    rw [Function.update_self]
    simp [doneBy]
  · rw [Function.update_of_ne (Ne.symm hc)]
    simp [doneBy,hc]

theorem mem_doneBy {entries : List E} {e : E} (he : e ∈ entries) : job e ∈ doneBy context job entries (context e) :=
  List.mem_map_of_mem (List.mem_filter.mpr ⟨he,decide_eq_true rfl⟩)

end

/-- How far a context has come in its section, if it is in one, and the jobs that it has left with this one. -/
structure Worker (G J : Type) where
  stage : Option G
  todo : List J

/-- The lock guards the sections, and every job of a context has been done or is still to do; a section is about
the first one. -/
structure Working {ι G J : Type} (locked : Bool) (rest : Prop) (At : G → Prop) (job : G → J) (jobs done : ι → List J)
    (v : ι → Worker G J) : Prop where
  guarded : Guarded locked rest At fun c => (v c).stage
  accounts : ∀ c, done c ++ (v c).todo = jobs c
  begun : ∀ {c g}, (v c).stage = some g → ∃ js, (v c).todo = job g :: js

namespace Working
variable {ι G J : Type} {b : Bool} {rest rest' : Prop} {At At' : G → Prop} {job : G → J} {jobs done : ι → List J}
  {v : ι → Worker G J} {c : ι} {g g' : G}

theorem start (hrest : rest) : Working false rest At job jobs (fun _ => []) fun c => ⟨none,jobs c⟩ where
  guarded := ⟨fun hs => (Option.some_ne_none _ hs.symm).elim,fun hs => (Option.some_ne_none _ hs.symm).elim,
    fun hs => (Option.some_ne_none _ hs.symm).elim,fun _ => hrest⟩
  accounts _ := rfl
  begun hs := (Option.some_ne_none _ hs.symm).elim

theorem mono (h : Working b rest At job jobs done v) (hat : ∀ g, At g → At' g) (hrest : rest → rest') :
    Working b rest' At' job jobs done v := ⟨h.guarded.mono hat hrest,h.accounts,h.begun⟩

/-- The jobs that are done come first, and then the one of the section. -/
theorem underway (h : Working b rest At job jobs done v) (hc : (v c).stage = some g) :
    done c ++ [job g] <+: jobs c := by
  obtain ⟨js,hjs⟩ := h.begun hc
  refine ⟨js,?_⟩
  rw [← h.accounts c,hjs,List.append_assoc]
  rfl

theorem finished (h : Working b rest At job jobs done v) (hc : (v c).todo = []) : done c = jobs c := by
  rw [← h.accounts c,hc,List.append_nil]

variable [DecidableEq ι]

private theorem stage_update (v : ι → Worker G J) (c : ι) (w : Worker G J) :
    (fun c' => (Function.update v c w c').stage) = Function.update (fun c => (v c).stage) c w.stage :=
  Function.comp_update Worker.stage v c w

/-- The context stays at the same job. -/
private theorem enter (h : Working b rest At job jobs done v) {js : List J} (htodo : (v c).todo = job g :: js) {b' : Bool}
    (hguarded : Guarded b' rest' At' (Function.update (fun c => (v c).stage) c (some g))) :
    Working b' rest' At' job jobs done (Function.update v c ⟨some g,(v c).todo⟩) where
  guarded := by
    rw [stage_update]
    exact hguarded
  accounts c' := by
    by_cases hne : c' = c
    · subst hne
      rw [Function.update_self]
      exact h.accounts c'
    · rw [Function.update_of_ne hne]
      exact h.accounts c'
  begun {c' g'} hs := by
    by_cases hne : c' = c
    · subst hne
      rw [Function.update_self] at hs ⊢
      cases hs
      exact ⟨js,htodo⟩
    · rw [Function.update_of_ne hne] at hs ⊢
      exact h.begun hs

theorem acquire (h : Working false rest At job jobs done v) {js : List J} (htodo : (v c).todo = job g :: js)
    (hat : rest → At' g) : Working true rest' At' job jobs done (Function.update v c ⟨some g,(v c).todo⟩) :=
  h.enter htodo (h.guarded.acquire hat)

theorem advance (h : Working b rest At job jobs done v) (hc : (v c).stage = some g) (hjob : job g' = job g)
    (hat : At' g') : Working b rest' At' job jobs done (Function.update v c ⟨some g',(v c).todo⟩) := by
  obtain ⟨js,hjs⟩ := h.begun hc
  rw [← hjob] at hjs
  exact h.enter hjs (h.guarded.advance hc hat)

theorem release (h : Working b rest At job jobs done v) (hc : (v c).stage = some g) (hrest : rest') :
    Working false rest' At' job jobs (Function.update done c (done c ++ [job g]))
      (Function.update v c ⟨none,(v c).todo.tail⟩) where
  guarded := by
    rw [stage_update]
    exact h.guarded.release hc hrest
  accounts c' := by
    by_cases hne : c' = c
    · subst hne
      obtain ⟨js,hjs⟩ := h.begun hc
      rw [Function.update_self,Function.update_self,← h.accounts c',hjs,List.append_assoc]
      rfl
    · rw [Function.update_of_ne hne,Function.update_of_ne hne]
      exact h.accounts c'
  begun {c' g'} hs := by
    by_cases hne : c' = c
    · subst hne
      rw [Function.update_self] at hs
      cases hs
    · rw [Function.update_of_ne hne] at hs ⊢
      exact h.begun hs

end Working

end HeineOS.Lib
