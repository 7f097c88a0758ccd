import Mathlib.Data.Set.Insert
import Mathlib.Logic.Function.Basic

/-! Marking: a map changed by a function in a set of places, and loops that mark whatever they come across. Where
the places of each round do not depend on the marks, the loop marks all of them. -/
namespace HeineOS.Lib
variable {α β ι : Type} {f : β → β} {m : α → β} {a : α} {S T : Set α}

open Classical in
/-- `m` with the function applied in the places of `S`. -/
noncomputable def mark (f : β → β) (S : Set α) (m : α → β) : α → β := fun a => if a ∈ S then f (m a) else m a

theorem mark_of_mem (h : a ∈ S) : mark f S m a = f (m a) := if_pos h

theorem mark_of_not_mem (h : a ∉ S) : mark f S m a = m a := if_neg h

/-- A place is marked or left alone. -/
theorem mark_cases (f : β → β) (S : Set α) (m : α → β) (a : α) : mark f S m a = f (m a) ∨ mark f S m a = m a := by
  by_cases h : a ∈ S
  · exact .inl (mark_of_mem h)
  · exact .inr (mark_of_not_mem h)

@[simp] theorem mark_empty : mark f ∅ m = m := by
  funext a
  exact mark_of_not_mem (Set.notMem_empty a)

theorem update_eq_mark [DecidableEq α] (a : α) : Function.update m a (f (m a)) = mark f {a} m := by
  funext x
  by_cases hx : x = a
  · rw [hx,Function.update_self,mark_of_mem (Set.mem_singleton a)]
  · have hout : x ∉ ({a} : Set α) := hx
    rw [Function.update_of_ne hx,mark_of_not_mem hout]

/-- Marks of an idempotent function add up. -/
theorem mark_mark (hf : ∀ b, f (f b) = f b) : mark f S (mark f T m) = mark f (T ∪ S) m := by
  funext a
  by_cases hS : a ∈ S
  · have hin : a ∈ T ∪ S := .inr hS
    rw [mark_of_mem hS,mark_of_mem hin]
    rcases mark_cases f T m a with h | h
    · rw [h,hf]
    · rw [h]
  · rw [mark_of_not_mem hS]
    by_cases hT : a ∈ T
    · have hin : a ∈ T ∪ S := .inl hT
      rw [mark_of_mem hT,mark_of_mem hin]
    · have hout : a ∉ T ∪ S := fun h => h.elim hT hS
      rw [mark_of_not_mem hT,mark_of_not_mem hout]

theorem mark_again (hf : ∀ b, f (f b) = f b) : mark f S (mark f S m) = mark f S m := by
  rw [mark_mark hf,Set.union_self]

/-- A loop of marking rounds. -/
theorem foldl_mark (hf : ∀ b, f (f b) = f b) {step : (α → β) → ι → α → β} {touch : (α → β) → ι → Set α}
    (hstep : ∀ m i, step m i = mark f (touch m i) m) (hstable : ∀ S m i, touch (mark f S m) i = touch m i)
    (is : List ι) (m : α → β) : is.foldl step m = mark f {a | ∃ i ∈ is, a ∈ touch m i} m := by
  induction is generalizing m with
  | nil =>
    have hnone : {a | ∃ i ∈ ([] : List ι), a ∈ touch m i} = ∅ := by
      ext a
      simp
    rw [hnone,mark_empty]
    rfl
  | cons i is ih =>
    rw [List.foldl_cons,hstep,ih,mark_mark hf]
    congr 1
    ext a
    simp [hstable]

end HeineOS.Lib
