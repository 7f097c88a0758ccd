import HeineOS.Allocator.Layout
import HeineOS.Lib.Span
import HeineOS.Lib.System

/-! The bump allocator: a pointer that only grows, until the last allocation is freed. Nothing compares it with the end
of the heap. -/
namespace HeineOS.Bump
open Lib System

structure Allocator where
  heapStart : Nat
  heapEnd : Nat
  next : Nat
  allocations : Nat
  deriving DecidableEq, Repr

namespace Allocator

def new : Allocator := ⟨0,0,0,0⟩

def init (self : Allocator) (heapStart heapSize : Nat) : Checked Allocator := do
  let heapEnd ← Usize.add heapStart heapSize
  return { self with heapStart := heapStart, heapEnd := heapEnd, next := heapStart }

def alloc (self : Allocator) (layout : Layout) : Checked (Nat × Allocator) := do
  let alignedPtr ← alignUp self.next layout.align
  let allocations ← Usize.add self.allocations 1
  return (alignedPtr,{ self with next := (alignedPtr + layout.size) % 2^64, allocations := allocations })

def dealloc (self : Allocator) (_ptr : Nat) (_layout : Layout) : Checked Allocator := do
  let allocations ← Usize.sub self.allocations 1
  if allocations = 0 then
    return { self with next := self.heapStart, allocations := allocations }
  else
    return { self with allocations := allocations }

private theorem roundUp_eq_zero {x n : Nat} (hn : 0 < n) : roundUp x n = 0 ↔ x = 0 := by
  constructor
  · intro h
    have hle := le_roundUp (x := x) hn
    omega
  · intro h
    rw [h,roundUp_of_dvd hn (dvd_zero n)]

/-- `alloc` returns the next aligned address, whatever the size. -/
theorem alloc_eq {self self' : Allocator} {layout : Layout} {ptr : Nat} (h : self.alloc layout = .ok (ptr,self')) :
    ptr = roundUp self.next layout.align ∧ ptr < 2^64 ∧
    self' = { self with next := (ptr + layout.size) % 2^64, allocations := self.allocations + 1 } := by
  obtain ⟨k,hk,hk63⟩ := layout.align_exp
  rw [alloc,hk,alignUp_pow _ _ hk63] at h
  have hlt : roundUp self.next (2^k) < self.next + 2^k := roundUp_lt (Nat.two_pow_pos k)
  split at h
  · rename_i hfits
    rw [Usize.add] at h
    split at h
    · cases h
      exact ⟨by rw [hk],hlt.trans hfits,rfl⟩
    · cases h
  · cases h

/-- The pointer is aligned, not before `next`, and null only when that is. -/
theorem alloc_ptr {self self' : Allocator} {layout : Layout} {ptr : Nat} (h : self.alloc layout = .ok (ptr,self')) :
    layout.align ∣ ptr ∧ self.next ≤ ptr ∧ (ptr = 0 ↔ self.next = 0) := by
  obtain ⟨rfl,_,_⟩ := alloc_eq h
  exact ⟨roundUp_dvd _ _,le_roundUp layout.align_pos,roundUp_eq_zero layout.align_pos⟩

theorem dealloc_eq {self self' : Allocator} {layout : Layout} {ptr : Nat} (h : self.dealloc ptr layout = .ok self') :
    1 ≤ self.allocations ∧ self' = { self with
      next := if self.allocations = 1 then self.heapStart else self.next
      allocations := self.allocations - 1 } := by
  rw [dealloc,Usize.sub] at h
  split at h
  · rename_i hone
    refine ⟨hone,?_⟩
    by_cases hlast : self.allocations = 1
    · simp only [hlast, if_pos] at h ⊢
      cases h
      rfl
    · have hmore : self.allocations - 1 ≠ 0 := by omega
      simp only [bind, Except.bind, hmore, hlast, if_false] at h ⊢
      cases h
      rfl
  · cases h

end Allocator

/-- A pointer that `alloc` has returned and that is not freed yet. -/
structure Live where
  ptr : Nat
  layout : Layout
  deriving DecidableEq

def Live.span (a : Live) : Span := ⟨a.ptr,a.layout.size⟩

structure Heap where
  allocator : Allocator
  live : List Live

namespace Heap

inductive Op where
  | alloc (layout : Layout)
  | dealloc (a : Live)

/-- Each `dealloc` names a live allocation with the layout it was allocated with. -/
def Admissible (h : Heap) : Op → Prop
  | .alloc _ => True
  | .dealloc a => a ∈ h.live

/-- A null pointer is no allocation. -/
def exec (h : Heap) : Op → Checked Heap
  | .alloc layout => do
    let (ptr,allocator) ← h.allocator.alloc layout
    return ⟨allocator,if ptr = 0 then h.live else ⟨ptr,layout⟩ :: h.live⟩
  | .dealloc a => do
    let allocator ← h.allocator.dealloc a.ptr a.layout
    return ⟨allocator,h.live.erase a⟩

/-- Runs from `init(start, size)` on the empty allocator. -/
def system (start size : Nat) : System Heap Op where
  init h := ∃ a, Allocator.new.init start size = .ok a ∧ h = ⟨a,[]⟩
  step h op h' := h.Admissible op ∧ h.exec op = .ok h'

/-- The allocation is aligned, and all of its bytes are in the heap. -/
def Placed (h : Heap) (a : Live) : Prop :=
  a.layout.align ∣ a.ptr ∧ ∀ x, a.span.Has x → h.allocator.heapStart ≤ x ∧ x < h.allocator.heapEnd

/-- The live allocations are placed and share no byte. -/
def Safe (h : Heap) : Prop := (∀ a ∈ h.live, h.Placed a) ∧ h.live.Pairwise fun a b => a.span.Apart b.span

/-- What is left behind the aligned pointer is enough. An empty allocation needs nothing, and the aligned pointer 0 is
the null pointer. -/
def HasRoom (h : Heap) : Op → Prop
  | .alloc layout => layout.size = 0 ∨ h.allocator.next = 0 ∨
      roundUp h.allocator.next layout.align + layout.size ≤ h.allocator.heapEnd
  | .dealloc _ => True

/-- The pointer is behind every live allocation, and the counter counts them. -/
structure Inv (start size : Nat) (h : Heap) : Prop where
  bounds : h.allocator.heapStart = start ∧ h.allocator.heapEnd = start + size
  fits : start + size < 2^64
  start_le : start ≤ h.allocator.next
  ends : ∀ a ∈ h.live, a.span.stop ≤ h.allocator.next
  counted : h.live.length ≤ h.allocator.allocations
  safe : h.Safe

section
variable {start size : Nat} {h h' : Heap} {layout : Layout} {ptr : Nat} {allocator : Allocator}

theorem inv_init (hinit : (system start size).init h) : Inv start size h := by
  obtain ⟨a,ha,rfl⟩ := hinit
  rw [Allocator.init,Usize.add] at ha
  split at ha
  · rename_i hfits
    cases ha
    exact ⟨⟨rfl,rfl⟩,hfits,le_rfl,(fun _ ha => nomatch ha),Nat.zero_le _,(fun _ ha => nomatch ha),.nil⟩
  · cases ha

/-- The pointer that `alloc` returns lies behind every live allocation. -/
theorem Inv.apart_alloc (hi : Inv start size h) (ha : h.allocator.alloc layout = .ok (ptr,allocator)) {a : Live}
    (hlive : a ∈ h.live) : a.span.Apart (Live.span ⟨ptr,layout⟩) := by
  obtain ⟨_,hle,_⟩ := Allocator.alloc_ptr ha
  exact .inl ((hi.ends a hlive).trans hle)

/-- It is placed, if it is not null, exactly when there is room. -/
theorem Inv.placed_alloc_iff (hi : Inv start size h) (ha : h.allocator.alloc layout = .ok (ptr,allocator)) :
    ptr = 0 ∨ h.Placed ⟨ptr,layout⟩ ↔ h.HasRoom (.alloc layout) := by
  obtain ⟨hptr,_,_⟩ := Allocator.alloc_eq ha
  obtain ⟨hdvd,hle,hnull⟩ := Allocator.alloc_ptr ha
  have hstart := hi.start_le
  rw [hnull,HasRoom,← hptr,Placed,hi.bounds.1]
  constructor
  · intro hplaced
    rcases hplaced with hzero | ⟨_,hinside⟩
    · exact .inr (.inl hzero)
    by_cases hsize : layout.size = 0
    · exact .inl hsize
    have hhas : (Live.span ⟨ptr,layout⟩).Has (ptr + layout.size - 1) := by
      simp only [Span.Has, Span.stop, Live.span]
      omega
    have hlast := (hinside _ hhas).2
    exact .inr (.inr (by omega))
  · intro hroom
    rcases hroom with hsize | hzero | hfits
    · refine .inr ⟨hdvd,fun x hx => ?_⟩
      simp only [Span.Has, Span.stop, Live.span] at hx
      omega
    · exact .inl hzero
    · refine .inr ⟨hdvd,fun x hx => ?_⟩
      simp only [Span.Has, Span.stop, Live.span] at hx
      omega

/-- With room the pointer does not wrap around. -/
private theorem Inv.add_lt (hi : Inv start size h) (hroom : h.HasRoom (.alloc layout))
    (ha : h.allocator.alloc layout = .ok (ptr,allocator)) : ptr + layout.size < 2^64 := by
  obtain ⟨hptr,hlt,_⟩ := Allocator.alloc_eq ha
  obtain ⟨_,_,hnull⟩ := Allocator.alloc_ptr ha
  have hend := hi.bounds.2
  have hfits := hi.fits
  have hsize := layout.size_le
  rw [HasRoom,← hptr,← hnull] at hroom
  omega

theorem inv_alloc (hi : Inv start size h) (hroom : h.HasRoom (.alloc layout))
    (he : h.exec (.alloc layout) = .ok h') : Inv start size h' := by
  cases ha : h.allocator.alloc layout with
  | error e =>
    rw [exec,ha] at he
    cases he
  | ok r =>
    obtain ⟨ptr,allocator⟩ := r
    obtain ⟨_,_,hself⟩ := Allocator.alloc_eq ha
    obtain ⟨_,hle,_⟩ := Allocator.alloc_ptr ha
    have hnext : allocator.next = ptr + layout.size := by
      rw [hself]
      exact Nat.mod_eq_of_lt (hi.add_lt hroom ha)
    have hends : ∀ a ∈ h.live, a.span.stop ≤ allocator.next := by
      intro a hlive
      have hend := hi.ends a hlive
      omega
    have hbounds : allocator.heapStart = start ∧ allocator.heapEnd = start + size := by
      rw [hself]
      exact hi.bounds
    have hplaced : ∀ a, h.Placed a → a.layout.align ∣ a.ptr ∧
        ∀ x, a.span.Has x → allocator.heapStart ≤ x ∧ x < allocator.heapEnd := by
      intro a
      rw [hself]
      exact id
    have hcount : allocator.allocations = h.allocator.allocations + 1 := by rw [hself]
    have hcounted := hi.counted
    have hstart : start ≤ allocator.next := hi.start_le.trans (by omega)
    obtain ⟨hall,hapart⟩ := hi.safe
    rw [exec,ha] at he
    cases he
    by_cases hzero : ptr = 0
    · rw [if_pos hzero]
      refine ⟨hbounds,hi.fits,hstart,hends,?_,⟨fun a hlive => hplaced a (hall a hlive),hapart⟩⟩
      dsimp only
      omega
    · rw [if_neg hzero]
      have hnew : h.Placed ⟨ptr,layout⟩ := ((hi.placed_alloc_iff ha).mpr hroom).resolve_left hzero
      refine ⟨hbounds,hi.fits,hstart,List.forall_mem_cons.mpr ⟨hnext.ge,hends⟩,?_,⟨?_,?_⟩⟩
      · rw [List.length_cons]
        dsimp only
        omega
      · exact List.forall_mem_cons.mpr ⟨hplaced _ hnew,fun a hlive => hplaced a (hall a hlive)⟩
      · exact List.pairwise_cons.mpr ⟨fun a hlive => (hi.apart_alloc ha hlive).symm,hapart⟩

/-- The pointer goes back to the start only when nothing is live. -/
theorem inv_dealloc {a : Live} (hi : Inv start size h) (ha : a ∈ h.live) (he : h.exec (.dealloc a) = .ok h') :
    Inv start size h' := by
  cases hd : h.allocator.dealloc a.ptr a.layout with
  | error e =>
    rw [exec,hd] at he
    cases he
  | ok allocator =>
    rw [exec,hd] at he
    cases he
    obtain ⟨hone,rfl⟩ := Allocator.dealloc_eq hd
    have hcounted := hi.counted
    have hlength : (h.live.erase a).length = h.live.length - 1 := List.length_erase_of_mem ha
    obtain ⟨hall,hapart⟩ := hi.safe
    have hsafe : ∀ b ∈ h.live.erase a, h.Placed b := fun b hb => hall b (List.mem_of_mem_erase hb)
    refine ⟨hi.bounds,hi.fits,?_,?_,?_,⟨hsafe,hapart.sublist List.erase_sublist⟩⟩
    · dsimp only
      split
      · exact hi.bounds.1.ge
      · exact hi.start_le
    · intro b hb
      have hlast : h.allocator.allocations ≠ 1 := by
        intro hlast
        have hpos := List.length_pos_of_mem hb
        dsimp only at hpos
        omega
      dsimp only
      rw [if_neg hlast]
      exact hi.ends b (List.mem_of_mem_erase hb)
    · dsimp only
      omega

theorem inv_reachable (hr : ((system start size).restrict HasRoom).Reachable h) : Inv start size h := by
  refine hr.invariant ?_ ?_
  · intro h hinit
    exact inv_init hinit
  intro h op h' hi hstep
  obtain ⟨hroom,hadm,he⟩ := hstep
  cases op with
  | alloc layout => exact inv_alloc hi hroom he
  | dealloc a => exact inv_dealloc hi hadm he

/-- In every run from `init` whose allocations have room, the live allocations are aligned, inside the heap and
disjoint, and the next pointer is null or one more such allocation exactly when there is room for it. -/
theorem bump_safe (hr : ((system start size).restrict HasRoom).Reachable h) :
    (h.allocator.heapStart = start ∧ h.allocator.heapEnd = start + size) ∧ h.Safe ∧
    ∀ layout ptr allocator, h.allocator.alloc layout = .ok (ptr,allocator) →
      (ptr = 0 ∨ (h.Placed ⟨ptr,layout⟩ ∧ ∀ a ∈ h.live, a.span.Apart (Live.span ⟨ptr,layout⟩)) ↔
        h.HasRoom (.alloc layout)) := by
  have hi := inv_reachable hr
  refine ⟨hi.bounds,hi.safe,?_⟩
  intro layout ptr allocator ha
  rw [← hi.placed_alloc_iff ha]
  have hapart : ∀ a ∈ h.live, a.span.Apart (Live.span ⟨ptr,layout⟩) := fun a hlive => hi.apart_alloc ha hlive
  exact or_congr_right (and_iff_left hapart)

end

/-- A word, and more than a heap of 16 bytes has. -/
def word : Layout := ⟨8,8,by decide,by decide⟩

def fourWords : Layout := ⟨32,8,by decide,by decide⟩

/-- Two words, of which the first one is freed. There is no room for a third one, which would lie behind the heap. -/
theorem bump_safe_word : ∃ h, ((system 4096 16).restrict HasRoom).Reachable h ∧ h.live = [⟨4104,word⟩] ∧ h.Safe ∧
    h.allocator.alloc word = .ok (4112,⟨4096,4112,4120,2⟩) ∧ ¬ h.Placed ⟨4112,word⟩ := by
  have hrun : ((system 4096 16).restrict HasRoom).Run ⟨⟨4096,4112,4096,0⟩,[]⟩
      [.alloc word,.alloc word,.dealloc ⟨4096,word⟩] ⟨⟨4096,4112,4112,1⟩,[⟨4104,word⟩]⟩ :=
    .cons ⟨.inr (.inr (by decide)),trivial,rfl⟩ (.cons ⟨.inr (.inr (by decide)),trivial,rfl⟩
      (.cons ⟨trivial,List.mem_cons_of_mem _ List.mem_cons_self,rfl⟩ (.nil _)))
  have hr : ((system 4096 16).restrict HasRoom).Reachable _ := ⟨_,_,⟨_,rfl,rfl⟩,hrun⟩
  obtain ⟨-,hsafe,hplaced⟩ := bump_safe hr
  have halloc : Allocator.alloc ⟨4096,4112,4112,1⟩ word = .ok (4112,⟨4096,4112,4120,2⟩) := rfl
  refine ⟨_,hr,rfl,hsafe,halloc,?_⟩
  intro hin
  have hroom := (hplaced word _ _ halloc).mp (.inr ⟨hin,by decide⟩)
  revert hroom
  rw [HasRoom]
  decide

/-- The allocation takes more bytes than the heap has. -/
theorem bump_leaves_heap : ∃ h, (system 4096 16).Reachable h ∧ ¬ h.Safe := by
  have hrun : (system 4096 16).Run ⟨⟨4096,4112,4096,0⟩,[]⟩ [.alloc fourWords] _ := .cons ⟨trivial,rfl⟩ (.nil _)
  refine ⟨_,⟨_,_,⟨_,rfl,rfl⟩,hrun⟩,?_⟩
  intro hsafe
  have hplaced := hsafe.1 ⟨4096,fourWords⟩ (by decide)
  have hlast := (hplaced.2 4127 (by decide)).2
  revert hlast
  decide

end Heap

end HeineOS.Bump
