import Mathlib.Data.List.Sort
import Mathlib.Data.Set.Basic
import Mathlib.Tactic.Ring

/-! Half-open spans of naturals and sorted lists of them that never touch.
Such a list is determined by the set it covers: it lists the maximal runs of that set. -/
namespace HeineOS.Lib

structure Span where
  start : Nat
  size : Nat
  deriving DecidableEq, Repr

namespace Span

/-- First position behind the span. -/
def stop (b : Span) : Nat := b.start + b.size

@[simp] theorem stop_mk (a n : Nat) : (Span.mk a n).stop = a + n := rfl

def Has (b : Span) (x : Nat) : Prop := b.start ≤ x ∧ x < b.stop

instance (b : Span) (x : Nat) : Decidable (b.Has x) := inferInstanceAs (Decidable (_ ∧ _))

/-- Spans that share no position; touching is allowed. -/
def Apart (b c : Span) : Prop := b.stop ≤ c.start ∨ c.stop ≤ b.start

instance (b c : Span) : Decidable (b.Apart c) := inferInstanceAs (Decidable (_ ∨ _))

theorem Apart.symm {b c : Span} (h : b.Apart c) : c.Apart b := Or.symm h

theorem apart_iff {b c : Span} (hb : 0 < b.size) (hc : 0 < c.size) :
    b.Apart c ↔ ∀ x, ¬ (b.Has x ∧ c.Has x) := by
  constructor
  · rintro h x ⟨hx,hy⟩
    simp only [Has, Apart] at *
    omega
  · intro h
    have h1 := h (max b.start c.start)
    simp only [Has, Apart, stop] at *
    omega

/-- Join two spans of which the second starts where the first stops. -/
def join (b c : Span) : Span := ⟨b.start, b.size + c.size⟩

@[simp] theorem join_start (b c : Span) : (b.join c).start = b.start := rfl
@[simp] theorem join_size (b c : Span) : (b.join c).size = b.size + c.size := rfl

theorem join_stop {b c : Span} (h : b.stop = c.start) : (b.join c).stop = c.stop := by
  simp only [stop, join] at *
  omega

theorem join_has {b c : Span} (h : b.stop = c.start) (x : Nat) :
    (b.join c).Has x ↔ b.Has x ∨ c.Has x := by
  simp only [Has, stop, join] at *
  omega

end Span

/-- Positions covered by a list of spans. -/
def Covers (l : List Span) (x : Nat) : Prop := ∃ b ∈ l, b.Has x

@[simp] theorem covers_nil (x : Nat) : ¬ Covers [] x := by simp [Covers]

@[simp] theorem covers_cons (b : Span) (l : List Span) (x : Nat) :
    Covers (b :: l) x ↔ b.Has x ∨ Covers l x := by simp [Covers]

@[simp] theorem covers_append (l m : List Span) (x : Nat) :
    Covers (l ++ m) x ↔ Covers l x ∨ Covers m x := by
  simp only [Covers, List.mem_append]
  constructor
  · rintro ⟨b,h | h,hx⟩
    · exact .inl ⟨b,h,hx⟩
    · exact .inr ⟨b,h,hx⟩
  · rintro (⟨b,h,hx⟩ | ⟨b,h,hx⟩)
    · exact ⟨b,.inl h,hx⟩
    · exact ⟨b,.inr h,hx⟩

theorem Covers.perm {l m : List Span} (h : l.Perm m) (x : Nat) : Covers l x ↔ Covers m x := by
  simp [Covers, h.mem_iff]

/-- Sum of the sizes. -/
def total (l : List Span) : Nat := (l.map Span.size).sum

@[simp] theorem total_nil : total [] = 0 := rfl
@[simp] theorem total_cons (b : Span) (l : List Span) : total (b :: l) = b.size + total l := by
  simp [total]
@[simp] theorem total_append (l m : List Span) : total (l ++ m) = total l + total m := by
  simp [total]

theorem total_perm {l m : List Span} (h : l.Perm m) : total l = total m :=
  (h.map Span.size).sum_nat

/-- Nonempty spans in increasing order with at least one position between neighbours. -/
structure Separated (l : List Span) : Prop where
  pos : ∀ b ∈ l, 0 < b.size
  gap : l.Pairwise fun b c => b.stop < c.start

namespace Separated
variable {l m : List Span} {b c : Span}

theorem nil : Separated [] := ⟨by simp, .nil⟩

theorem cons_iff : Separated (b :: l) ↔
    0 < b.size ∧ (∀ c ∈ l, b.stop < c.start) ∧ Separated l := by
  constructor
  · rintro ⟨hp,hg⟩
    rw [List.pairwise_cons] at hg
    exact ⟨hp b (by simp),hg.1,fun c hc => hp c (by simp [hc]),hg.2⟩
  · rintro ⟨hp,hb,h⟩
    refine ⟨?_,List.pairwise_cons.mpr ⟨hb,h.gap⟩⟩
    intro c hc
    rcases List.mem_cons.mp hc with rfl | hc
    · exact hp
    · exact h.pos c hc

theorem head (h : Separated (b :: l)) : 0 < b.size := (cons_iff.mp h).1
theorem head_gap (h : Separated (b :: l)) (hc : c ∈ l) : b.stop < c.start := (cons_iff.mp h).2.1 c hc
theorem tail (h : Separated (b :: l)) : Separated l := (cons_iff.mp h).2.2

theorem sublist (h : Separated l) (hm : m.Sublist l) : Separated m :=
  ⟨fun b hb => h.pos b (hm.subset hb),h.gap.sublist hm⟩

theorem sorted (h : Separated l) : l.Pairwise fun b c => b.start < c.start := by
  refine h.gap.imp ?_
  intro b c hbc
  unfold Span.stop at hbc
  omega

theorem nodup (h : Separated l) : l.Nodup := h.sorted.imp (by rintro b c hbc rfl; omega)

/-- Two members are equal or keep a gap, in one order or the other. -/
theorem mem_cases (h : Separated l) (hb : b ∈ l) (hc : c ∈ l) :
    b = c ∨ b.stop < c.start ∨ c.stop < b.start := by
  induction l with
  | nil => simp at hb
  | cons d l ih =>
    rcases List.mem_cons.mp hb with hb | hb <;> rcases List.mem_cons.mp hc with hc | hc
    · exact .inl (hb.trans hc.symm)
    · exact .inr (.inl (hb ▸ h.head_gap hc))
    · exact .inr (.inr (hc ▸ h.head_gap hb))
    · exact ih h.tail hb hc

/-- A member may shrink in place. -/
theorem shrink {pre post : List Span} (h : Separated (pre ++ b :: post)) (hc : 0 < c.size)
    (hs : b.start ≤ c.start) (he : c.stop ≤ b.stop) : Separated (pre ++ c :: post) := by
  induction pre with
  | nil => exact cons_iff.mpr ⟨hc,fun d hd => he.trans_lt (h.head_gap hd),h.tail⟩
  | cons a pre ih =>
    refine cons_iff.mpr ⟨h.head,?_,ih h.tail⟩
    intro d hd
    rcases List.mem_append.mp hd with hd | hd
    · exact h.head_gap (List.mem_append_left _ hd)
    rcases List.mem_cons.mp hd with rfl | hd
    · exact (h.head_gap (by simp)).trans_le hs
    · exact h.head_gap (by simp [hd])

/-- Behind the split nothing starts before the member there stops, and in front nothing
reaches it. -/
theorem mem_split {pre post : List Span} (h : Separated (pre ++ b :: post)) (hc : c ∈ pre ++ post) :
    c.stop < b.start ∨ b.stop < c.start := by
  have hcm : c ∈ pre ++ b :: post := by
    rcases List.mem_append.mp hc with hc | hc <;> simp [hc]
  rcases h.mem_cases (b := b) (by simp) hcm with rfl | hbc | hbc
  · have hnd := h.nodup
    rw [List.nodup_middle,List.nodup_cons] at hnd
    exact absurd hc hnd.1
  · exact .inr hbc
  · exact .inl hbc

end Separated

/-- A maximal contiguous run of a set: it cannot be extended on either side. -/
structure IsMaximalRun (S : Set Nat) (b : Span) : Prop where
  pos : 0 < b.size
  subset : ∀ x, b.Has x → x ∈ S
  left : ∀ x, x + 1 = b.start → x ∉ S
  right : b.stop ∉ S

/-- A separated list lists exactly the maximal runs of what it covers. -/
theorem Separated.mem_iff_maximal {l : List Span} (h : Separated l) (b : Span) :
    b ∈ l ↔ IsMaximalRun {x | Covers l x} b := by
  constructor
  · intro hb
    have hp := h.pos b hb
    refine ⟨hp,fun x hx => ⟨b,hb,hx⟩,?_,?_⟩
    · rintro x hx ⟨c,hc,hxc⟩
      rcases h.mem_cases hb hc with rfl | hbc | hbc <;> simp only [Span.Has, Span.stop] at * <;> omega
    · rintro ⟨c,hc,hxc⟩
      rcases h.mem_cases hb hc with rfl | hbc | hbc <;> simp only [Span.Has, Span.stop] at * <;> omega
  · intro hm
    obtain ⟨c,hc,hsc⟩ : Covers l b.start := hm.subset _ ⟨le_rfl,by have := hm.pos; simp [Span.stop]; omega⟩
    -- the member of the list at the first position of the run is the whole run
    have hcp := h.pos c hc
    have hstart : c.start = b.start := by
      by_contra hne
      have hlt : c.start < b.start := by simp only [Span.Has] at hsc; omega
      exact hm.left (b.start - 1) (by omega) ⟨c,hc,by simp only [Span.Has, Span.stop] at *; omega⟩
    have hle : ¬ b.stop < c.stop := by
      intro hlt
      exact hm.right ⟨c,hc,by simp only [Span.Has, Span.stop] at *; omega⟩
    have hge : ¬ c.stop < b.stop := by
      intro hlt
      obtain ⟨d,hd,hdx⟩ : Covers l c.stop := hm.subset _ (by simp only [Span.Has, Span.stop] at *; omega)
      rcases h.mem_cases hc hd with rfl | hcd | hcd <;> simp only [Span.Has, Span.stop] at * <;> omega
    have : b = c := by
      cases b
      cases c
      simp only [Span.stop, Span.mk.injEq] at *
      omega
    exact this ▸ hc

/-- Separated lists with the same cover are equal. -/
theorem Separated.ext {l m : List Span} (hl : Separated l) (hm : Separated m)
    (h : ∀ x, Covers l x ↔ Covers m x) : l = m := by
  have hs : {x | Covers l x} = {x | Covers m x} := Set.ext h
  have hmem : ∀ b, b ∈ l ↔ b ∈ m := by
    intro b
    rw [hl.mem_iff_maximal,hm.mem_iff_maximal,hs]
  have hp : l.Perm m := (List.perm_ext_iff_of_nodup hl.nodup hm.nodup).mpr hmem
  refine hp.eq_of_pairwise ?_ hl.sorted hm.sorted
  intro b c _ _ hbc hcb
  omega

/-- The separated list `l'` is `l` with one more span, joined with what it touches.
`closed` bounds the members of `l'` by any property that joining keeps. -/
structure Inserted (l : List Span) (node : Span) (l' : List Span) : Prop where
  separated : Separated l'
  covers : ∀ x, Covers l' x ↔ Covers l x ∨ node.Has x
  total : total l' = total l + node.size
  closed : ∀ P : Span → Prop, (∀ b c, P b → P c → b.stop = c.start → P (b.join c)) →
    (∀ b ∈ l, P b) → P node → ∀ b ∈ l', P b

namespace Inserted
variable {l l' : List Span} {node b c : Span}

/-- Insert in front of a list that the span does not touch. -/
theorem front (hl : Separated l) (hn : 0 < node.size) (hgap : ∀ b ∈ l, node.stop < b.start) :
    Inserted l node (node :: l) := by
  refine ⟨Separated.cons_iff.mpr ⟨hn,hgap,hl⟩,?_,?_,?_⟩
  · intro x
    rw [covers_cons]
    exact or_comm
  · rw [total_cons]
    omega
  · intro P _ hP hnode b hb
    rcases List.mem_cons.mp hb with rfl | hb
    · exact hnode
    · exact hP b hb

/-- Members left of the insertion stay as they are. -/
theorem cons (hl : Separated (b :: l)) (h : Inserted l node l') (hb : b.stop < node.start) :
    Inserted (b :: l) node (b :: l') := by
  have hgap : ∀ c ∈ l', b.stop < c.start :=
    h.closed (fun c => b.stop < c.start) (fun c d hc _ _ => hc) (fun c hc => hl.head_gap hc) hb
  refine ⟨Separated.cons_iff.mpr ⟨hl.head,hgap,h.separated⟩,?_,?_,?_⟩
  · intro x
    rw [covers_cons,covers_cons,h.covers,or_assoc]
  · rw [total_cons,total_cons,h.total]
    omega
  · intro P hj hP hnode c hc
    rcases List.mem_cons.mp hc with rfl | hc
    · exact hP c (by simp)
    · exact h.closed P hj (fun d hd => hP d (by simp [hd])) hnode c hc

/-- Inserting a span joined with the member behind it inserts the span. -/
theorem of_join_right {pre : List Span} (hadj : node.stop = c.start)
    (h : Inserted (pre ++ l) (node.join c) l') : Inserted (pre ++ c :: l) node l' := by
  refine ⟨h.separated,?_,?_,?_⟩
  · intro x
    rw [h.covers,Span.join_has hadj]
    simp only [covers_append, covers_cons]
    tauto
  · rw [h.total]
    simp only [total_append, total_cons, Span.join_size]
    omega
  · intro P hj hP hnode
    have hc : P c := hP c (by simp)
    refine h.closed P hj (fun d hd => hP d ?_) (hj _ _ hnode hc hadj)
    simp only [List.mem_append, List.mem_cons] at hd ⊢
    tauto

/-- Joining the span into the member in front of it inserts the span. -/
theorem join_left (hl : Separated (b :: l)) (hadj : b.stop = node.start)
    (hgap : ∀ c ∈ l, node.stop < c.start) : Inserted (b :: l) node (b.join node :: l) := by
  have hsep : Separated (b.join node :: l) := by
    refine Separated.cons_iff.mpr ⟨?_,?_,hl.tail⟩
    · have := hl.head
      rw [Span.join_size]
      omega
    · intro c hc
      rw [Span.join_stop hadj]
      exact hgap c hc
  refine ⟨hsep,?_,?_,?_⟩
  · intro x
    rw [covers_cons,covers_cons,Span.join_has hadj]
    tauto
  · simp only [total_cons, Span.join_size]
    omega
  · intro P hj hP hnode c hc
    rcases List.mem_cons.mp hc with rfl | hc
    · exact hj _ _ (hP b (by simp)) hnode hadj
    · exact hP c (by simp [hc])

end Inserted

end HeineOS.Lib
