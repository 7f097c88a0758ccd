import Mathlib.Data.List.Basic

/-! A list cut into chunks of one length, the last of which may be shorter, and into triples, of which a rest is left
out. -/
namespace HeineOS.Lib
variable {α β : Type} {n : Nat}

def chunks (n : Nat) (l : List α) : List (List α) :=
  (List.range ((l.length + n - 1) / n)).map fun i => (l.drop (n * i)).take n

def triples : List α → List (α × α × α)
  | a :: b :: c :: rest => (a,b,c) :: triples rest
  | _ => []

theorem length_chunks (n : Nat) (l : List α) : (chunks n l).length = (l.length + n - 1) / n := by
  rw [chunks,List.length_map,List.length_range]

theorem chunks_nil (hn : 0 < n) : chunks n ([] : List α) = [] := by
  have hcount : (n - 1) / n = 0 := Nat.div_eq_of_lt (by omega)
  simp [chunks, hcount]

/-- A list that is not empty starts with its first chunk. -/
theorem chunks_of_ne_nil (hn : 0 < n) {l : List α} (hl : l ≠ []) : chunks n l = l.take n :: chunks n (l.drop n) := by
  have hpos : 0 < l.length := List.length_pos_iff.mpr hl
  have hcount : (l.length + n - 1) / n = ((l.drop n).length + n - 1) / n + 1 := by
    rw [List.length_drop]
    by_cases hlong : n ≤ l.length
    · have hsplit : l.length + n - 1 = l.length - n + n - 1 + n := by omega
      rw [hsplit,Nat.add_div_right _ hn]
    · have hnone : l.length - n + n - 1 = n - 1 := by omega
      have hone : l.length + n - 1 = l.length - 1 + n := by omega
      rw [hnone,hone,Nat.add_div_right _ hn,Nat.div_eq_of_lt (by omega),Nat.div_eq_of_lt (by omega)]
  rw [chunks,hcount,List.range_succ_eq_map,List.map_cons,List.map_map,Nat.mul_zero,List.drop_zero,chunks]
  congr 1
  apply List.map_congr_left
  intro i _
  rw [Function.comp_apply,List.drop_drop,Nat.mul_succ,Nat.add_comm]

/-- Rows of one length come back as chunks. -/
theorem chunks_flatten (hn : 0 < n) {rows : List (List α)} (hrows : ∀ row ∈ rows, row.length = n) :
    chunks n rows.flatten = rows := by
  induction rows with
  | nil => exact chunks_nil hn
  | cons row rows ih =>
    rw [List.forall_mem_cons] at hrows
    have hne : (row :: rows).flatten ≠ [] := by
      intro hnil
      rw [List.flatten_cons,List.append_eq_nil_iff] at hnil
      rw [hnil.1] at hrows
      exact absurd hrows.1 (Nat.ne_of_lt hn)
    rw [chunks_of_ne_nil hn hne,List.flatten_cons,List.take_left' hrows.1,List.drop_left' hrows.1,ih hrows.2]

theorem length_flatten {rows : List (List α)} (hrows : ∀ row ∈ rows, row.length = n) :
    rows.flatten.length = rows.length * n := by
  induction rows with
  | nil => rw [List.flatten_nil,List.length_nil,List.length_nil,Nat.zero_mul]
  | cons row rows ih =>
    rw [List.forall_mem_cons] at hrows
    rw [List.flatten_cons,List.length_append,hrows.1,ih hrows.2,List.length_cons,Nat.succ_mul,Nat.add_comm]

/-- The place of an element in rows of one length. -/
theorem getElem?_flatten {rows : List (List α)} (hrows : ∀ row ∈ rows, row.length = n) {r c : Nat} {row : List α}
    (hr : rows[r]? = some row) (hc : c < n) : rows.flatten[r * n + c]? = row[c]? := by
  induction rows generalizing r with
  | nil => exact nomatch hr
  | cons first rows ih =>
    rw [List.forall_mem_cons] at hrows
    rw [List.flatten_cons]
    cases r with
    | zero =>
      rw [List.getElem?_cons_zero,Option.some.injEq] at hr
      rw [Nat.zero_mul,Nat.zero_add,List.getElem?_append_left (by omega),hr]
    | succ r =>
      rw [List.getElem?_cons_succ] at hr
      have hindex : (r + 1) * n + c = first.length + (r * n + c) := by
        rw [hrows.1,Nat.succ_mul]
        omega
      rw [hindex,List.getElem?_append_right (by omega),Nat.add_sub_cancel_left,ih hrows.2 hr]

/-- Every chunk has at least `k` elements when the last one has. -/
theorem forall_chunks_le_length (hn : 0 < n) {k : Nat} (hk : k ≤ n) (l : List α) :
    (∀ c ∈ chunks n l, k ≤ c.length) ↔ l.length % n = 0 ∨ k ≤ l.length % n := by
  induction hlen : l.length using Nat.strongRecOn generalizing l with
  | _ len ih =>
    subst hlen
    by_cases hl : l = []
    · subst hl
      simp [chunks_nil hn]
    · have hpos : 0 < l.length := List.length_pos_iff.mpr hl
      rw [chunks_of_ne_nil hn hl,List.forall_mem_cons,List.length_take,
        ih (l.drop n).length (by rw [List.length_drop]; omega) (l.drop n) rfl,List.length_drop]
      by_cases hlong : n ≤ l.length
      · rw [Nat.min_eq_left hlong,← Nat.mod_eq_sub_mod hlong]
        exact and_iff_right hk
      · have hrest : l.length - n = 0 := by omega
        rw [hrest,Nat.zero_mod,Nat.min_eq_right (by omega),Nat.mod_eq_of_lt (by omega)]
        constructor
        · intro h
          exact .inr h.1
        · intro h
          exact ⟨by omega,.inl rfl⟩

theorem length_triples {k : Nat} {l : List α} (h : l.length = 3 * k) : (triples l).length = k := by
  induction k generalizing l with
  | zero =>
    rw [List.length_eq_zero_iff.mp h]
    rfl
  | succ k ih =>
    match l with
    | [] | [_] | [_,_] => simp at h <;> omega
    | _ :: _ :: _ :: rest =>
      simp only [List.length_cons] at h
      rw [triples,List.length_cons,ih (by omega)]

/-- Triples come back from the list of their elements. -/
theorem triples_flatMap (l : List β) (f : β → α × α × α) :
    triples (l.flatMap fun x => [(f x).1,(f x).2.1,(f x).2.2]) = l.map f := by
  induction l with
  | nil => rfl
  | cons x l ih =>
    rw [List.flatMap_cons]
    simp only [List.cons_append, List.nil_append, triples, ih, List.map_cons]

/-- A loop that fails at the first element out of range. -/
theorem mapM_if {p : α → Prop} [DecidablePred p] (g : α → β) (l : List α) :
    l.mapM (fun x => if p x then some (g x) else none) = if ∀ x ∈ l, p x then some (l.map g) else none := by
  induction l with
  | nil => rfl
  | cons x l ih =>
    rw [List.mapM_cons,ih]
    by_cases hx : p x
    · by_cases hl : ∀ y ∈ l, p y
      · have hall : ∀ y ∈ x :: l, p y := List.forall_mem_cons.mpr ⟨hx,hl⟩
        rw [if_pos hx,if_pos hl,if_pos hall]
        rfl
      · have hall : ¬ ∀ y ∈ x :: l, p y := fun h => hl (List.forall_mem_cons.mp h).2
        rw [if_pos hx,if_neg hl,if_neg hall]
        rfl
    · have hall : ¬ ∀ y ∈ x :: l, p y := fun h => hx (List.forall_mem_cons.mp h).1
      rw [if_neg hx,if_neg hall]
      rfl

end HeineOS.Lib
