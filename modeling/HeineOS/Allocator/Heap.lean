import HeineOS.Allocator.FreeList
import HeineOS.Lib.System
import Mathlib.Data.List.Perm.Subperm

/-! Runs of the linked list allocator. Next to the allocator a run records the live
allocations and every alignment gap that a successful `alloc` has skipped. -/
namespace HeineOS.LinkedList
open Lib

/-- A pointer returned by `alloc` and not freed yet, with its layout. -/
structure Live where
  ptr : Nat
  layout : Layout
  deriving DecidableEq

def Live.block (a : Live) : Block := ⟨a.ptr,blockSize a.layout⟩

@[simp] theorem Live.block_start (a : Live) : a.block.start = a.ptr := rfl
@[simp] theorem Live.block_size (a : Live) : a.block.size = blockSize a.layout := rfl

structure Heap where
  allocator : Allocator
  live : List Live
  gaps : List Block

namespace Heap

abbrev free (h : Heap) : List Block := h.allocator.free

/-- The blocks of the live allocations. -/
def liveBlocks (h : Heap) : List Block := h.live.map Live.block

inductive Op where
  | alloc (layout : Layout)
  | dealloc (a : Live)

/-- Each `dealloc` names a live allocation with the layout it was allocated with. -/
def Admissible (h : Heap) : Op → Prop
  | .alloc _ => True
  | .dealloc a => a ∈ h.live

def exec (h : Heap) : Op → Checked (Option Nat × Heap)
  | .alloc layout => do
    match ← LinkedList.alloc h.free layout with
    | (none,free) => return (none,{ h with allocator.free := free })
    | (some ptr,free) =>
      return (some ptr,{ h with
        allocator.free := free
        live := ⟨ptr,layout⟩ :: h.live
        gaps := skippedGap h.free layout :: h.gaps })
  | .dealloc a => do
    let free ← LinkedList.dealloc h.free a.ptr a.layout
    return (none,{ h with allocator.free := free, live := h.live.erase a })

/-- Runs from `init(start, size)` on the empty allocator. -/
def system (start size : Nat) : System Heap Op where
  init h := ∃ a, Allocator.new.init start size = .ok a ∧ h = ⟨a,[],[]⟩
  step h op h' := h.Admissible op ∧ ∃ ptr, h.exec op = .ok (ptr,h')

/-- Sizes and positions that every free block has. -/
structure Good (b : Block) : Prop where
  size_le : nodeSize ≤ b.size
  start_dvd : nodeAlign ∣ b.start
  size_dvd : nodeAlign ∣ b.size

theorem Good.join {b c : Block} (hb : Good b) (hc : Good c) (_ : b.stop = c.start) : Good (b.join c) :=
  ⟨hb.size_le.trans (Nat.le_add_right _ _),hb.start_dvd,Nat.dvd_add hb.size_dvd hc.size_dvd⟩

/-- The free blocks are separated and cover exactly the heap bytes that are neither live
nor skipped. -/
structure Inv (start size : Nat) (h : Heap) : Prop where
  bounds : h.allocator.heapStart = start ∧ h.allocator.heapEnd = start + size
  fits : start + size < 2^64
  separated : Separated h.free
  good : ∀ b ∈ h.free, Good b
  served : ∀ a ∈ h.live, ∃ k, Served a.layout k ∧ 2^k ∣ a.ptr
  apart : h.live.Pairwise fun a b => a.block.Apart b.block
  inside : ∀ x, Covers h.liveBlocks x ∨ Covers h.gaps x → start ≤ x ∧ x < start + size
  gapped : ∀ x, Covers h.liveBlocks x → ¬ Covers h.gaps x
  covers : ∀ x, Covers h.free x ↔
    (start ≤ x ∧ x < start + size) ∧ ¬ Covers h.liveBlocks x ∧ ¬ Covers h.gaps x
  total : total h.free + total h.liveBlocks + total h.gaps = size

theorem has_start {b : Block} (h : 0 < b.size) : b.Has b.start := ⟨le_rfl,by unfold Span.stop; omega⟩

theorem has_last {b : Block} (h : 0 < b.size) : b.Has (b.stop - 1) := by
  unfold Span.Has Span.stop
  omega

namespace Inv
variable {start size : Nat} {h : Heap} (hi : Inv start size h)
include hi

theorem free_inside {b : Block} (hb : b ∈ h.free) : start ≤ b.start ∧ b.stop ≤ start + size := by
  have hp := hi.separated.pos b hb
  have h1 := ((hi.covers b.start).mp ⟨b,hb,has_start hp⟩).1
  have h2 := ((hi.covers (b.stop - 1)).mp ⟨b,hb,has_last hp⟩).1
  omega

theorem bounded {b : Block} (hb : b ∈ h.free) : Bounded b :=
  (hi.free_inside hb).2.trans_lt hi.fits

theorem live_pos {a : Live} (ha : a ∈ h.live) : 0 < a.block.size := by
  obtain ⟨k,hk,_⟩ := hi.served a ha
  exact (by decide : 0 < nodeSize).trans_le hk.node_le

theorem live_inside {a : Live} (ha : a ∈ h.live) :
    start ≤ a.ptr ∧ a.ptr + blockSize a.layout ≤ start + size := by
  have hp := hi.live_pos ha
  have hm : a.block ∈ h.liveBlocks := List.mem_map_of_mem ha
  have h1 := hi.inside _ (.inl ⟨a.block,hm,has_start hp⟩)
  have h2 := hi.inside _ (.inl ⟨a.block,hm,has_last hp⟩)
  simp only [Span.stop, Live.block_start, Live.block_size] at h1 h2 hp
  omega

theorem live_free_apart {a : Live} (ha : a ∈ h.live) {b : Block} (hb : b ∈ h.free) :
    b.Apart a.block := by
  rw [Span.apart_iff (hi.separated.pos b hb) (hi.live_pos ha)]
  rintro x ⟨hbx,hax⟩
  exact ((hi.covers x).mp ⟨b,hb,hbx⟩).2.1 ⟨a.block,List.mem_map_of_mem ha,hax⟩

end Inv

/-- `init` panics at most where `heap_start + heap_size` overflows. -/
theorem init_cases (start size : Nat) :
    Allocator.new.init start size =
      if start + size < 2^64 then .ok ⟨[⟨start,size⟩],start,start + size⟩ else .error .arithmetic := by
  simp only [Allocator.init, Allocator.new, addFreeBlock, addFreeBlockLoop, linkBlock, Usize.add, bind,
    Except.bind, pure, Except.pure]
  by_cases hlt : start + size < 2^64
  · simp only [if_pos hlt]
  · simp only [if_neg hlt]

section Steps
variable {start size : Nat}

theorem inv_init (hs : nodeAlign ∣ start) (hz : nodeAlign ∣ size) (hmin : nodeSize ≤ size) {h : Heap}
    (hinit : (system start size).init h) : Inv start size h := by
  obtain ⟨a,ha,rfl⟩ := hinit
  rw [init_cases] at ha
  split at ha
  · rename_i hlt
    cases ha
    have hpos : 0 < size := (by decide : 0 < nodeSize).trans_le hmin
    refine ⟨⟨rfl,rfl⟩,hlt,?_,?_,by simp,.nil,by simp [liveBlocks],by simp [liveBlocks],?_,
      by simp [free, liveBlocks]⟩
    · exact Separated.cons_iff.mpr ⟨hpos,by simp,.nil⟩
    · intro b hb
      rw [List.mem_singleton.mp hb]
      exact ⟨hmin,hs,hz⟩
    · intro x
      simp [free, liveBlocks, Span.Has]
  · cases ha

/-- A carved block leaves good blocks behind. -/
theorem good_carved {h : Heap} (hi : Inv start size h) {layout : Layout} {k ptr : Nat}
    {free' pre post : List Block} {node : Block} (hk : Served layout k)
    (hc : Carved h.free layout k ptr free' pre node post) : ∀ b ∈ free', Good b := by
  intro b hb
  rw [hc.result,List.append_assoc,List.mem_append,List.mem_append] at hb
  rcases hb with hb | hb | hb
  · exact hi.good b (by rw [hc.split]; simp [hb])
  · have hnode := hi.good node hc.node_mem
    have hle := hc.end_le
    have hsz := hc.remainder_size b hb
    have hptr : nodeAlign ∣ ptr := hk.node_dvd.trans hc.aligned
    unfold remainder at hb
    split at hb
    · rw [List.mem_singleton.mp hb] at hsz ⊢
      exact ⟨hsz,Nat.dvd_add hptr hk.size_dvd,
        Nat.dvd_sub (Nat.dvd_add hnode.start_dvd hnode.size_dvd) (Nat.dvd_add hptr hk.size_dvd)⟩
    · simp at hb
  · exact hi.good b (by rw [hc.split]; simp [hb])

/-- The bytes that a carved block takes out of the free list: the gap and the allocation. -/
theorem has_gap_or_block (layout : Layout) {node : Block} {ptr : Nat} (hs : node.start ≤ ptr) (x : Nat) :
    node.start ≤ x ∧ x < ptr + blockSize layout ↔
      (Live.block ⟨ptr,layout⟩).Has x ∨ Span.Has ⟨node.start,ptr - node.start⟩ x := by
  simp only [Span.Has, Span.stop, Live.block]
  omega

theorem inv_alloc {h h' : Heap} (hi : Inv start size h) {layout : Layout} {ptr : Option Nat}
    (he : h.exec (.alloc layout) = .ok (ptr,h')) : Inv start size h' := by
  rcases alloc_cases hi.separated (fun b hb => hi.bounded hb) layout with
    ha | ha | ⟨k,hk,⟨ha,_⟩ | ⟨p,free',pre,node,post,ha,hc⟩⟩
  · simp only [exec, ha, bind, Except.bind] at he
    cases he
  · simp only [exec, ha, bind, Except.bind] at he
    cases he
  · simp only [exec, ha, bind, Except.bind, pure, Except.pure] at he
    cases he
    exact hi
  · simp only [exec, ha, bind, Except.bind, pure, Except.pure, hc.gap_eq] at he
    cases he
    have hs := hc.start_le
    have hle := hc.end_le
    have hsplit := fun x => has_gap_or_block layout hs x
    have hnode : ∀ x, node.start ≤ x ∧ x < p + blockSize layout → Covers h.free x := by
      intro x hx
      exact ⟨node,hc.node_mem,hx.1,by omega⟩
    refine ⟨hi.bounds,hi.fits,hc.separated hi.separated,good_carved hi hk hc,?_,?_,?_,?_,?_,?_⟩
    · intro a ha
      rcases List.mem_cons.mp ha with rfl | ha
      · exact ⟨k,hk,hc.aligned⟩
      · exact hi.served a ha
    · refine List.pairwise_cons.mpr ⟨?_,hi.apart⟩
      intro a ha
      have hpos : 0 < blockSize layout := (by decide : 0 < nodeSize).trans_le hk.node_le
      rw [Span.apart_iff hpos (hi.live_pos ha)]
      rintro x ⟨hx,hax⟩
      have hfree := hnode x ((hsplit x).mpr (.inl hx))
      exact ((hi.covers x).mp hfree).2.1 ⟨a.block,List.mem_map_of_mem ha,hax⟩
    · intro x hx
      simp only [liveBlocks, List.map_cons, covers_cons] at hx
      rcases hx with (hx | hx) | (hx | hx)
      · exact ((hi.covers x).mp (hnode x ((hsplit x).mpr (.inl hx)))).1
      · exact hi.inside x (.inl hx)
      · exact ((hi.covers x).mp (hnode x ((hsplit x).mpr (.inr hx)))).1
      · exact hi.inside x (.inr hx)
    · intro x hx hg
      simp only [liveBlocks, List.map_cons, covers_cons] at hx hg
      rcases hx with hx | hx <;> rcases hg with hg | hg
      · simp only [Span.Has, Span.stop, Live.block] at hx hg
        omega
      · exact ((hi.covers x).mp (hnode x ((hsplit x).mpr (.inl hx)))).2.2 hg
      · exact ((hi.covers x).mp (hnode x ((hsplit x).mpr (.inr hg)))).2.1 hx
      · exact hi.gapped x hx hg
    · intro x
      rw [hc.covers_iff hi.separated,hi.covers,hsplit]
      simp only [liveBlocks, List.map_cons, covers_cons]
      tauto
    · have := hc.total_eq
      have := hi.total
      simp only [free, liveBlocks, List.map_cons, total_cons, Live.block_size] at *
      omega

theorem dealloc_ok {h : Heap} (hi : Inv start size h) {a : Live} (ha : a ∈ h.live) :
    ∃ free', LinkedList.dealloc h.free a.ptr a.layout = .ok free' ∧ Inserted h.free a.block free' := by
  obtain ⟨k,hk,_⟩ := hi.served a ha
  have hin := hi.live_inside ha
  have hfit := hi.fits
  obtain ⟨free',he,hins⟩ := addFreeBlock_ok a.ptr (blockSize a.layout) hi.separated
    (fun b hb => hi.bounded hb) (hi.live_pos ha) (by omega) (fun b hb => hi.live_free_apart ha hb)
  refine ⟨free',?_,hins⟩
  simp only [LinkedList.dealloc, hk.eq_ok, bind, Except.bind]
  exact he

/-- The live blocks are the freed one and the others, which share no byte with it. -/
theorem covers_erase {h : Heap} (hi : Inv start size h) {a : Live} (ha : a ∈ h.live) (x : Nat) :
    (Covers h.liveBlocks x ↔ a.block.Has x ∨ Covers ((h.live.erase a).map Live.block) x) ∧
      ¬ (a.block.Has x ∧ Covers ((h.live.erase a).map Live.block) x) := by
  have hp := List.perm_cons_erase ha
  constructor
  · rw [← covers_cons]
    exact Covers.perm (hp.map Live.block) x
  · rintro ⟨hx,b,hb,hbx⟩
    obtain ⟨c,hc,rfl⟩ := List.mem_map.mp hb
    have hpw := (hp.pairwise_iff (fun {_ _} h => Span.Apart.symm h)).mp hi.apart
    have hac := (List.pairwise_cons.mp hpw).1 c hc
    have hcl : c ∈ h.live := List.mem_of_mem_erase hc
    exact (Span.apart_iff (hi.live_pos ha) (hi.live_pos hcl)).mp hac x ⟨hx,hbx⟩

theorem inv_dealloc {h : Heap} (hi : Inv start size h) {a : Live} (ha : a ∈ h.live) :
    ∃ h', h.exec (.dealloc a) = .ok (none,h') ∧ Inv start size h' ∧
      h'.live = h.live.erase a ∧ h'.gaps = h.gaps := by
  obtain ⟨free',he,hins⟩ := dealloc_ok hi ha
  have hsub : (h.live.erase a).Sublist h.live := List.erase_sublist
  have hgood : Good a.block := by
    obtain ⟨k,hk,hptr⟩ := hi.served a ha
    exact ⟨hk.node_le,hk.node_dvd.trans hptr,hk.size_dvd⟩
  refine ⟨{ h with allocator.free := free', live := h.live.erase a },
    by simp only [exec, he, bind, Except.bind]; rfl,?_,rfl,rfl⟩
  refine ⟨hi.bounds,hi.fits,hins.separated,?_,?_,hi.apart.sublist hsub,?_,?_,?_,?_⟩
  · exact hins.closed Good (fun b c hb hc hbc => hb.join hc hbc) hi.good hgood
  · exact fun b hb => hi.served b (hsub.subset hb)
  · intro x hx
    have hc := covers_erase hi ha x
    exact hi.inside x (hx.imp (fun hl => hc.1.mpr (.inr hl)) id)
  · intro x hx
    have hc := covers_erase hi ha x
    exact hi.gapped x (hc.1.mpr (.inr hx))
  · intro x
    have hc := covers_erase hi ha x
    have hg : a.block.Has x → (start ≤ x ∧ x < start + size) ∧ ¬ Covers h.gaps x := fun hx =>
      ⟨hi.inside x (.inl (hc.1.mpr (.inl hx))),hi.gapped x (hc.1.mpr (.inl hx))⟩
    rw [hins.covers,hi.covers]
    simp only [liveBlocks] at hc ⊢
    tauto
  · have ht := total_perm ((List.perm_cons_erase ha).map Live.block)
    have := hi.total
    have := hins.total
    simp only [free, liveBlocks, List.map_cons, total_cons, Live.block_size] at *
    omega

theorem inv_step {h h' : Heap} {op : Op} (hi : Inv start size h)
    (hs : (system start size).step h op h') : Inv start size h' := by
  obtain ⟨hadm,ptr,he⟩ := hs
  cases op with
  | alloc layout => exact inv_alloc hi he
  | dealloc a =>
    obtain ⟨h₁,he₁,hi₁,_⟩ := inv_dealloc hi hadm
    rw [he₁] at he
    cases he
    exact hi₁

theorem inv_reachable (hs : nodeAlign ∣ start) (hz : nodeAlign ∣ size) (hmin : nodeSize ≤ size) {h : Heap}
    (hr : (system start size).Reachable h) : Inv start size h :=
  hr.invariant (fun _ hi => inv_init hs hz hmin hi) (fun _ _ _ hi hst => inv_step hi hst)

/-- The only panics of an admissible operation are those of `size_align` and of the
overflow check. -/
theorem exec_error {h : Heap} (hi : Inv start size h) {op : Op} (hadm : h.Admissible op) {e : Panic}
    (he : h.exec op = .error e) : e = .adjustingAlignmentFailed ∨ e = .arithmetic := by
  cases op with
  | alloc layout =>
    rcases alloc_cases hi.separated (fun b hb => hi.bounded hb) layout with
      ha | ha | ⟨k,_,⟨ha,_⟩ | ⟨p,free',pre,node,post,ha,_⟩⟩ <;>
      simp only [exec, ha, bind, Except.bind, pure, Except.pure] at he <;> cases he
    · exact .inl rfl
    · exact .inr rfl
  | dealloc a =>
    obtain ⟨h₁,he₁,_⟩ := inv_dealloc hi hadm
    rw [he₁] at he
    cases he

end Steps

end Heap

end HeineOS.LinkedList
