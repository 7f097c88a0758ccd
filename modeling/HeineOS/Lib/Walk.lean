import Mathlib.Data.Fintype.Card
import Mathlib.Data.Fintype.EquivFin
import Mathlib.Data.List.Perm.Basic
import Mathlib.Logic.Relation

/-! Depth-first walks that collect the items without a node below them, and the forests on which such a
walk ends. -/
namespace HeineOS.Lib

theorem foldlM_ext {m : Type → Type} [Monad m] {α β : Type} {f g : β → α → m β} {l : List α}
    (h : ∀ a ∈ l, ∀ b, f b a = g b a) (b : β) : l.foldlM f b = l.foldlM g b := by
  induction l generalizing b with
  | nil => rfl
  | cons a l ih =>
    rw [List.foldlM_cons,List.foldlM_cons,h a List.mem_cons_self]
    congr 1
    funext b'
    exact ih (fun a' ha' => h a' (List.mem_cons_of_mem _ ha')) b'

theorem foldlM_flatMap {m : Type → Type} [Monad m] [LawfulMonad m] {α β γ : Type} (f : α → List γ)
    (g : β → γ → m β) (l : List α) (b : β) :
    (l.flatMap f).foldlM g b = l.foldlM (fun b a => (f a).foldlM g b) b := by
  induction l generalizing b with
  | nil => rfl
  | cons a l ih =>
    rw [List.flatMap_cons,List.foldlM_append,List.foldlM_cons]
    congr 1
    funext b'
    exact ih b'

/-- Nodes hold items, and an item may lead to a node below. -/
structure Graph (β ι : Type) where
  items : β → List ι
  below : ι → Option β

namespace Graph
variable {β ι : Type} (g : Graph β ι)

def visit (walk : β → List ι → Option (List ι)) (found : List ι) (i : ι) : Option (List ι) :=
  match g.below i with
  | some b => walk b found
  | none => some (found ++ [i])

/-- Adds the leaves at and below a node; `none` when the fuel does not reach to the bottom. -/
def walk : Nat → β → List ι → Option (List ι)
  | 0,_,_ => none
  | fuel + 1,b,found => (g.items b).foldlM (g.visit (walk fuel)) found

def leaves (is : List ι) : List ι := is.filter fun i => (g.below i).isNone

/-- `Forest bs nodes`: only finitely many nodes lie below `bs`; `nodes` lists them, a node once for each
way to reach it. -/
inductive Forest : List β → List β → Prop where
  | nil : Forest [] []
  | cons {b : β} {bs below rest : List β} : Forest ((g.items b).filterMap g.below) below →
      Forest bs rest → Forest (b :: bs) (b :: (below ++ rest))

/-- The leaves at some nodes. -/
def leavesAt (nodes : List β) : List ι := nodes.flatMap fun b => g.leaves (g.items b)

variable {g}

@[simp] theorem leavesAt_cons (b : β) (nodes : List β) :
    g.leavesAt (b :: nodes) = g.leaves (g.items b) ++ g.leavesAt nodes := rfl

@[simp] theorem leavesAt_append (nodes nodes' : List β) :
    g.leavesAt (nodes ++ nodes') = g.leavesAt nodes ++ g.leavesAt nodes' := List.flatMap_append

theorem mem_leavesAt {nodes : List β} {i : ι} :
    i ∈ g.leavesAt nodes ↔ ∃ b ∈ nodes, i ∈ g.items b ∧ g.below i = none := by
  simp only [leavesAt, leaves, List.mem_flatMap, List.mem_filter, Option.isNone_iff_eq_none]

private theorem leaves_eq_self {is : List ι} (h : ∀ i ∈ is, g.below i = none) : g.leaves is = is := by
  rw [leaves,List.filter_eq_self]
  intro i hi
  rw [h i hi]
  rfl

private theorem foldlM_leaves (walk : β → List ι → Option (List ι)) {is : List ι}
    (h : ∀ i ∈ is, g.below i = none) (found : List ι) :
    is.foldlM (g.visit walk) found = some (found ++ is) := by
  induction is generalizing found with
  | nil => simp
  | cons i is ih =>
    have hi : g.visit walk found i = some (found ++ [i]) := by
      rw [visit,h i List.mem_cons_self]
    rw [List.foldlM_cons,hi]
    change is.foldlM (g.visit walk) (found ++ [i]) = _
    rw [ih (fun j hj => h j (List.mem_cons_of_mem _ hj)),List.append_assoc]
    rfl

/-- Over items with a forest below them, enough fuel adds their leaves and those at the nodes below. -/
theorem Forest.foldlM_visit {bs nodes : List β} (h : g.Forest bs nodes) :
    ∀ is : List ι, is.filterMap g.below = bs → ∃ ds : List ι, ds.Perm (g.leaves is ++ g.leavesAt nodes) ∧
      ∃ enough, ∀ fuel ≥ enough, ∀ found, is.foldlM (g.visit (g.walk fuel)) found = some (found ++ ds) := by
  induction h with
  | nil =>
    intro is his
    have hleaf := List.filterMap_eq_nil_iff.mp his
    refine ⟨is,?_,0,fun fuel _ found => foldlM_leaves _ hleaf found⟩
    rw [leaves_eq_self hleaf,leavesAt,List.flatMap_nil,List.append_nil]
  | @cons b bs below rest _ _ ihBelow ihRest =>
    intro is his
    obtain ⟨before,i,after,rfl,hbefore,hi,hafter⟩ := List.filterMap_eq_cons_iff.mp his
    obtain ⟨ds,hds,n,hn⟩ := ihBelow _ rfl
    obtain ⟨ds',hds',n',hn'⟩ := ihRest _ hafter
    have hleaves : g.leaves (before ++ i :: after) = before ++ g.leaves after := by
      have hb := leaves_eq_self hbefore
      simp only [leaves, List.filter_append, List.filter_cons, hi] at hb ⊢
      rw [hb]
      rfl
    refine ⟨before ++ (ds ++ ds'),?_,max (n + 1) n',?_⟩
    · rw [hleaves,leavesAt_cons,leavesAt_append,List.append_assoc]
      apply List.Perm.append_left
      apply (hds.append hds').trans
      rw [← List.append_assoc,← List.append_assoc (g.leaves (g.items b)),← List.append_assoc (g.leaves after)]
      exact List.perm_append_comm.append_right _
    · intro fuel hfuel found
      obtain ⟨fuel,rfl⟩ : ∃ k, fuel = k + 1 := ⟨fuel - 1, by omega⟩
      have hvisit : g.visit (g.walk (fuel + 1)) (found ++ before) i = some (found ++ before ++ ds) := by
        rw [visit,hi]
        exact hn fuel (by omega) (found ++ before)
      rw [List.foldlM_append,foldlM_leaves _ hbefore]
      change (i :: after).foldlM (g.visit (g.walk (fuel + 1))) (found ++ before) = _
      rw [List.foldlM_cons,hvisit]
      change after.foldlM (g.visit (g.walk (fuel + 1))) (found ++ before ++ ds) = _
      rw [hn' (fuel + 1) (by omega)]
      simp only [List.append_assoc]

/-- Over the nodes of a forest, enough fuel collects the leaves at every node. -/
theorem Forest.foldlM_walk {bs nodes : List β} (h : g.Forest bs nodes) :
    ∃ ds : List ι, ds.Perm (g.leavesAt nodes) ∧ ∃ enough, ∀ fuel ≥ enough, ∀ found,
      bs.foldlM (fun found b => g.walk fuel b found) found = some (found ++ ds) := by
  induction h with
  | nil => exact ⟨[],.refl _,0,fun fuel _ found => by simp⟩
  | @cons b bs below rest hbelow _ _ ihRest =>
    obtain ⟨ds,hds,n,hn⟩ := hbelow.foldlM_visit _ rfl
    obtain ⟨ds',hds',n',hn'⟩ := ihRest
    refine ⟨ds ++ ds',?_,max (n + 1) n',?_⟩
    · rw [leavesAt_cons,leavesAt_append,← List.append_assoc]
      exact hds.append hds'
    · intro fuel hfuel found
      obtain ⟨fuel,rfl⟩ : ∃ k, fuel = k + 1 := ⟨fuel - 1, by omega⟩
      have hwalk : g.walk (fuel + 1) b found = some (found ++ ds) := hn fuel (by omega) found
      rw [List.foldlM_cons,hwalk]
      change bs.foldlM (fun found b => g.walk (fuel + 1) b found) (found ++ ds) = _
      rw [hn' (fuel + 1) (by omega),List.append_assoc]

/-- A walk over items that ends shows that a forest lies below them. -/
theorem forest_of_foldlM_visit {fuel : Nat} {is found ds : List ι}
    (h : is.foldlM (g.visit (g.walk fuel)) found = some ds) :
    ∃ nodes, g.Forest (is.filterMap g.below) nodes := by
  induction fuel generalizing is found ds with
  | zero =>
    have hnone : ∀ i ∈ is, g.below i = none := by
      induction is generalizing found with
      | nil => simp
      | cons i is ih =>
        rw [List.foldlM_cons,visit] at h
        cases hb : g.below i with
        | some b => simp [hb, walk] at h
        | none =>
          rw [hb] at h
          exact List.forall_mem_cons.mpr ⟨hb,ih h⟩
    rw [List.filterMap_eq_nil_iff.mpr hnone]
    exact ⟨[],.nil⟩
  | succ fuel ihFuel =>
    induction is generalizing found with
    | nil => exact ⟨[],.nil⟩
    | cons i is ih =>
      rw [List.foldlM_cons] at h
      obtain ⟨mid,hmid,hrest⟩ := Option.bind_eq_some_iff.mp h
      obtain ⟨rest,hforest⟩ := ih hrest
      rw [visit] at hmid
      cases hb : g.below i with
      | none =>
        rw [List.filterMap_cons_none hb]
        exact ⟨rest,hforest⟩
      | some b =>
        rw [hb] at hmid
        obtain ⟨below,hbelow⟩ := ihFuel hmid
        rw [List.filterMap_cons_some hb]
        exact ⟨_,.cons hbelow hforest⟩

/-- A walk that ends shows that its nodes have a forest below them. -/
theorem forest_of_foldlM_walk {fuel : Nat} {bs : List β} {found ds : List ι}
    (h : bs.foldlM (fun found b => g.walk fuel b found) found = some ds) : ∃ nodes, g.Forest bs nodes := by
  induction bs generalizing found with
  | nil => exact ⟨[],.nil⟩
  | cons b bs ih =>
    rw [List.foldlM_cons] at h
    obtain ⟨mid,hmid,hrest⟩ := Option.bind_eq_some_iff.mp h
    obtain ⟨rest,hforest⟩ := ih hrest
    cases fuel with
    | zero => simp [walk] at hmid
    | succ fuel =>
      obtain ⟨below,hbelow⟩ := forest_of_foldlM_visit hmid
      exact ⟨_,.cons hbelow hforest⟩

/-- An item of the node leads to the other one. -/
def LeadsTo (g : Graph β ι) (b b' : β) : Prop := ∃ i ∈ g.items b, g.below i = some b'

private theorem mem_filterMap_below {b b' : β} : b' ∈ (g.items b).filterMap g.below ↔ g.LeadsTo b b' :=
  List.mem_filterMap

private theorem Forest.acc {bs nodes : List β} (h : g.Forest bs nodes) :
    ∀ b ∈ bs, Acc (Function.swap g.LeadsTo) b := by
  induction h with
  | nil => simp
  | cons _ _ ihBelow ihRest =>
    rw [List.forall_mem_cons]
    exact ⟨Acc.intro _ fun b' hb' => ihBelow b' (mem_filterMap_below.mpr hb'),ihRest⟩

private theorem forest_of_forall {bs : List β} (h : ∀ b ∈ bs, ∃ nodes, g.Forest [b] nodes) :
    ∃ nodes, g.Forest bs nodes := by
  induction bs with
  | nil => exact ⟨[],.nil⟩
  | cons b bs ih =>
    rw [List.forall_mem_cons] at h
    obtain ⟨nodes,hb⟩ := h.1
    obtain ⟨rest,hbs⟩ := ih h.2
    cases hb with
    | cons hbelow _ => exact ⟨_,.cons hbelow hbs⟩

private theorem forest_of_acc {b : β} (h : Acc (Function.swap g.LeadsTo) b) : ∃ nodes, g.Forest [b] nodes := by
  induction h with
  | intro b _ ih =>
    obtain ⟨below,hbelow⟩ := forest_of_forall fun b' hb' => ih b' (mem_filterMap_below.mp hb')
    exact ⟨_,.cons hbelow .nil⟩

private theorem not_self_of_acc {r : β → β → Prop} {b : β} (h : Acc r b) : ¬ r b b := by
  induction h with
  | intro b _ ih => exact fun hself => ih b hself hself

open Relation in
/-- Over finitely many nodes, a descent ends exactly when it meets no cycle. -/
private theorem acc_iff_no_cycle [Finite β] {b : β} :
    Acc (Function.swap g.LeadsTo) b ↔ ∀ x, ReflTransGen g.LeadsTo b x → ¬ TransGen g.LeadsTo x x := by
  constructor
  · intro hacc x hx
    have hbelow : Acc (Function.swap g.LeadsTo) x := by
      induction hx with
      | refl => exact hacc
      | tail _ hstep ih => exact ih.inv hstep
    intro hcycle
    exact not_self_of_acc hbelow.transGen (transGen_swap.mpr hcycle)
  · intro hno
    let strictlyBelow (x y : { x // ReflTransGen g.LeadsTo b x }) : Prop := TransGen g.LeadsTo y.1 x.1
    have htrans : IsTrans _ strictlyBelow := ⟨fun _ _ _ hxy hyz => hyz.trans hxy⟩
    have hirrefl : Std.Irrefl strictlyBelow := ⟨fun x hx => hno x.1 x.2 hx⟩
    have hwf := Finite.wellFounded_of_trans_of_irrefl strictlyBelow
    have hdown (x : { x // ReflTransGen g.LeadsTo b x }) : Acc (Function.swap g.LeadsTo) x.1 := by
      induction x using hwf.induction with
      | _ x ih =>
        apply Acc.intro
        intro y hy
        exact ih ⟨y,x.2.tail hy⟩ (.single hy)
    exact hdown ⟨b,.refl⟩

open Relation in
/-- Over finitely many nodes, a forest lies below exactly those from which no cycle is reached. -/
theorem exists_forest_iff [Finite β] {bs : List β} :
    (∃ nodes, g.Forest bs nodes) ↔ ∀ b ∈ bs, ∀ x, ReflTransGen g.LeadsTo b x → ¬ TransGen g.LeadsTo x x := by
  constructor
  · intro h b hb
    obtain ⟨nodes,hforest⟩ := h
    exact acc_iff_no_cycle.mp (hforest.acc b hb)
  · intro h
    exact forest_of_forall fun b hb => forest_of_acc (acc_iff_no_cycle.mpr (h b hb))

end Graph

end HeineOS.Lib
