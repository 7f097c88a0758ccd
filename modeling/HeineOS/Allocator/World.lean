import HeineOS.Allocator.Heap
import HeineOS.Allocator.Chain

/-! Runs of the allocator over byte memory, with clients that write into their allocations.
Every reachable memory stores the free list of a run over lists. -/
namespace HeineOS.LinkedList
open Lib

/-- `alloc` on memory does what it does on lists and writes only into free blocks. -/
theorem Memory.alloc_refines {m : Memory} {free : List Block} (hsep : Separated free)
    (hsize : ∀ b ∈ free, nodeSize ≤ b.size) (hb : ∀ b ∈ free, Bounded b)
    (hchain : m.Chain m.head free) (layout : Layout) :
    match LinkedList.alloc free layout with
    | .error e => ∀ fuel, free.length < fuel → m.alloc fuel layout = .error e
    | .ok (ptr,l) => ∃ m', (∀ fuel, free.length < fuel → m.alloc fuel layout = .ok (some (ptr,m'))) ∧
        m'.Chain m'.head l ∧ Frame free m m' := by
  rcases sizeAlign_cases layout with he | ⟨k,hk⟩
  · simp only [LinkedList.alloc, Memory.alloc, he, bind, Except.bind, implies_true]
  have hfind := findFreeBlock_refines (blockSize layout) (2^k) free none hsep hsize hchain
  rcases findFreeBlock_cases (blockSize layout) hk.exp_le free hb with
    hl | ⟨hl,_⟩ | ⟨pre,node,post,hsplit,hfit,_,hl⟩
  · rw [hl] at hfind
    simp only [cursor] at hfind
    simp only [LinkedList.alloc, Memory.alloc, hk.eq_ok, hl, bind, Except.bind]
    intro fuel hf
    rw [hfind fuel hf]
  · rw [hl] at hfind
    simp only [cursor] at hfind
    simp only [LinkedList.alloc, Memory.alloc, hk.eq_ok, hl, bind, Except.bind, pure, Except.pure]
    exact ⟨m,fun fuel hf => by rw [hfind fuel hf],hchain,Frame.refl _ m⟩
  rw [hl] at hfind
  obtain ⟨m₁,he₁,hs₁,hc₁,hfr₁,_⟩ := hfind
  simp only [cursor, Option.toList_none, List.nil_append] at he₁ hc₁ hfr₁
  have hnode : Bounded node := hb node (by simp [hsplit])
  obtain ⟨hend,hexcess⟩ := hfit
  have hlt : roundUp node.start (2^k) + blockSize layout < 2^64 := hend.trans_lt hnode
  have hstart : node.start ≤ roundUp node.start (2^k) := le_roundUp (Nat.two_pow_pos k)
  have hpos : 0 < blockSize layout := (by decide : 0 < nodeSize).trans_le hk.node_le
  simp +contextual only [LinkedList.alloc, Memory.alloc, hk.eq_ok, hl, he₁, bind, Except.bind,
    Usize.checkedAdd, if_pos hlt, block_eq hs₁, endAddr_ok hnode, Usize.sub_ok hend]
  obtain ⟨stop,hstop⟩ : ∃ stop, roundUp node.start (2^k) + blockSize layout = stop := ⟨_,rfl⟩
  rw [hstop] at hend hexcess
  simp only [hstop]
  by_cases hrem : 0 < node.stop - stop
  · have hsub : (pre ++ post).Sublist free := by
      rw [hsplit]
      exact List.Sublist.append_left (List.sublist_cons_self _ _) _
    have hapart : ∀ b ∈ pre ++ post, b.Apart ⟨stop,node.stop - stop⟩ := by
      intro b hbm
      have := (hsplit ▸ hsep).mem_split hbm
      unfold Span.Apart Span.stop at *
      simp only
      omega
    have hns : nodeSize ≤ node.stop - stop := by omega
    obtain ⟨m',l,he,hladd,hc,hfr⟩ := addFreeBlock_refines m₁ ⟨stop,node.stop - stop⟩
      (hsep.sublist hsub) (fun b hbm => hsize b (hsub.subset hbm)) (fun b hbm => hb b (hsub.subset hbm))
      (by unfold Bounded at *; rw [Span.stop_mk]; omega) hns (by simp only [ne_eq]; omega) hapart hc₁
    simp only at he hladd
    simp only [if_pos hrem, hladd, pure, Except.pure]
    refine ⟨m',?_,hc,hfr₁.trans (hfr.mono fun x hx => ?_)⟩
    · intro fuel hf
      rw [he fuel (hsub.length_le.trans_lt hf)]
      rfl
    rw [hsplit]
    simp only [covers_append, covers_cons, covers_nil, or_false] at hx ⊢
    rcases hx with (hx | hx) | hx
    · exact .inl hx
    · exact .inr (.inr hx)
    · refine .inr (.inl ?_)
      simp only [Span.Has, Span.stop_mk] at hx ⊢
      omega
  · simp only [if_neg hrem, pure, Except.pure]
    exact ⟨m₁,fun _ _ => rfl,hc₁,hfr₁⟩

/-- The allocator in byte memory together with the live allocations. -/
structure World where
  memory : Memory
  heapStart : Nat
  heapEnd : Nat
  live : List Live

namespace World

/-- `new` followed by `init` over memory with any contents. -/
def init (fuel : Nat) (bytes : Bytes) (heapStart heapSize : Nat) : Checked (Option World) := do
  match ← Memory.addFreeBlock fuel ⟨bytes,0⟩ heapStart heapSize with
  | none => return none
  | some memory => return some ⟨memory,heapStart,← Usize.add heapStart heapSize,[]⟩

def exec (fuel : Nat) (w : World) : Heap.Op → Checked (Option (Option Nat × World))
  | .alloc layout => do
    match ← w.memory.alloc fuel layout with
    | none => return none
    | some (none,memory) => return some (none,{ w with memory })
    | some (some ptr,memory) => return some (some ptr,{ w with memory, live := ⟨ptr,layout⟩ :: w.live })
  | .dealloc a => do
    match ← w.memory.dealloc fuel a.ptr a.layout with
    | none => return none
    | some memory => return some (none,{ w with memory, live := w.live.erase a })

/-- The bytes that clients may write: their allocations and what is not heap. -/
def Writable (w : World) (x : Nat) : Prop :=
  Covers (w.live.map Live.block) x ∨ ¬ (w.heapStart ≤ x ∧ x < w.heapEnd)

inductive Event where
  | op (op : Heap.Op)
  | write (bytes : Bytes)

def Admissible (w : World) : Heap.Op → Prop
  | .alloc _ => True
  | .dealloc a => a ∈ w.live

/-- Runs from `init`. An operation is a step when it returns, with any fuel that is enough. -/
def system (start size : Nat) : System World Event where
  init w := ∃ fuel bytes, init fuel bytes start size = .ok (some w)
  step w ev w' :=
    match ev with
    | .op op => w.Admissible op ∧ ∃ ptr n, ∀ fuel, n ≤ fuel → w.exec fuel op = .ok (some (ptr,w'))
    | .write bytes => (∀ x, ¬ w.Writable x → bytes x = w.memory.bytes x) ∧
        w' = { w with memory.bytes := bytes }

/-- The memory stores the free list of `h`, which has the same live allocations. -/
structure Stores (w : World) (h : Heap) : Prop where
  chain : w.memory.Chain w.memory.head h.free
  live : w.live = h.live
  bounds : w.heapStart = h.allocator.heapStart ∧ w.heapEnd = h.allocator.heapEnd

section Steps
variable {start size : Nat} {w w' : World} {h : Heap}

private theorem init_ok {fuel : Nat} {bytes : Bytes} (he : init fuel bytes start size = .ok (some w)) :
    start + size < 2^64 ∧ 0 < fuel ∧ ∃ m, Memory.addFreeBlock fuel ⟨bytes,0⟩ start size = .ok (some m) ∧
      w = ⟨m,start,start + size,[]⟩ := by
  cases ha : Memory.addFreeBlock fuel ⟨bytes,0⟩ start size with
  | error e =>
    simp only [init, ha, bind, Except.bind] at he
    cases he
  | ok r =>
    cases r with
    | none =>
      simp only [init, ha, bind, Except.bind, pure, Except.pure] at he
      cases he
    | some m =>
      simp only [init, ha, Usize.add, bind, Except.bind, pure, Except.pure] at he
      by_cases hlt : start + size < 2^64
      · rw [if_pos hlt] at he
        cases he
        refine ⟨hlt,?_,m,rfl,rfl⟩
        cases fuel with
        | zero => cases ha
        | succ n => exact Nat.succ_pos n
      · rw [if_neg hlt] at he
        cases he

theorem init_stores (hmin : nodeSize ≤ size) (h0 : 0 < start) (hw : (system start size).init w) :
    ∃ h, (Heap.system start size).init h ∧ w.Stores h := by
  obtain ⟨fuel,bytes,he⟩ := hw
  obtain ⟨hlt,hf,m,hm,rfl⟩ := init_ok he
  obtain ⟨m',l,hm',hl,hc,_⟩ :=
    Memory.addFreeBlock_refines ⟨bytes,0⟩ ⟨start,size⟩ .nil (by simp) (by simp) hlt hmin (Nat.ne_of_gt h0)
      (by simp) rfl
  have hm' := hm' fuel hf
  simp only [hm] at hm'
  cases hm'
  cases hl
  exact ⟨⟨⟨[⟨start,size⟩],start,start + size⟩,[],[]⟩,⟨_,by rw [Heap.init_cases,if_pos hlt],rfl⟩,
    hc,rfl,rfl,rfl⟩

/-- One operation on memory ends as the operation on lists does, and afterwards the memory
stores the new free list. Only free blocks and a freed block are written. -/
theorem exec_refines (h0 : 0 < start) (hi : Heap.Inv start size h) (hst : w.Stores h) {op : Heap.Op}
    (hadm : h.Admissible op) :
    match h.exec op with
    | .error e => ∀ fuel, h.free.length < fuel → w.exec fuel op = .error e
    | .ok (ptr,h') => ∃ w', (∀ fuel, h.free.length < fuel → w.exec fuel op = .ok (some (ptr,w'))) ∧
        w'.Stores h' ∧
        ∀ x, ¬ Covers h.free x → (∀ a, op = .dealloc a → ¬ a.block.Has x) →
          w'.memory.bytes x = w.memory.bytes x := by
  have hb : ∀ b ∈ h.free, Bounded b := fun b hbm => hi.bounded hbm
  have hsize : ∀ b ∈ h.free, nodeSize ≤ b.size := fun b hbm => (hi.good b hbm).size_le
  cases op with
  | alloc layout =>
    have hr := Memory.alloc_refines hi.separated hsize hb hst.chain layout
    cases ha : LinkedList.alloc h.free layout with
    | error e =>
      rw [ha] at hr
      simp +contextual only [Heap.exec, exec, ha, hr, bind, Except.bind, implies_true]
    | ok r =>
      obtain ⟨ptr,l⟩ := r
      rw [ha] at hr
      obtain ⟨m',he,hc,hfr⟩ := hr
      cases ptr with
      | none =>
        simp +contextual only [Heap.exec, exec, ha, he, bind, Except.bind, pure, Except.pure]
        exact ⟨_,fun _ _ => rfl,⟨hc,hst.live,hst.bounds⟩,fun x hx _ => hfr x hx⟩
      | some ptr =>
        simp +contextual only [Heap.exec, exec, ha, he, bind, Except.bind, pure, Except.pure]
        exact ⟨_,fun _ _ => rfl,⟨hc,by simp only [hst.live],hst.bounds⟩,fun x hx _ => hfr x hx⟩
  | dealloc a =>
    have ha : a ∈ h.live := hadm
    obtain ⟨k,hk,_⟩ := hi.served a ha
    have hin := hi.live_inside ha
    have hfit := hi.fits
    obtain ⟨m',l,he,hl,hc,hfr⟩ := Memory.addFreeBlock_refines w.memory a.block hi.separated hsize hb
      (by unfold Bounded Span.stop; simp only [Live.block_start, Live.block_size]; omega) hk.node_le
      (by simp only [Live.block_start]; omega) (fun b hbm => hi.live_free_apart ha hbm) hst.chain
    simp only [Live.block_start, Live.block_size] at he hl
    simp +contextual only [Heap.exec, exec, LinkedList.dealloc, Memory.dealloc, hk.eq_ok, he, hl, bind,
      Except.bind, pure, Except.pure]
    refine ⟨_,fun _ _ => rfl,⟨hc,by simp only [hst.live],hst.bounds⟩,?_⟩
    intro x hx hax
    refine hfr x ?_
    rw [covers_append]
    rintro (hx' | hx')
    · exact hx hx'
    · exact hax a rfl (by simpa using hx')

theorem write_stores (hi : Heap.Inv start size h) (hst : w.Stores h) {bytes : Bytes}
    (hw : ∀ x, ¬ w.Writable x → bytes x = w.memory.bytes x) :
    Stores { w with memory.bytes := bytes } h := by
  refine ⟨hst.chain.congr fun b hb => Memory.node_congr (hi.good b hb).size_le ?_,hst.live,hst.bounds⟩
  intro x hx
  obtain ⟨hin,hlive,_⟩ := (hi.covers x).mp ⟨b,hb,hx⟩
  refine hw x ?_
  rintro (hc | hc)
  · rw [hst.live] at hc
    exact hlive hc
  · rw [hst.bounds.1,hst.bounds.2,hi.bounds.1,hi.bounds.2] at hc
    exact hc hin

theorem admissible_iff (hst : w.Stores h) (op : Heap.Op) : w.Admissible op ↔ h.Admissible op := by
  cases op with
  | alloc layout => exact Iff.rfl
  | dealloc a =>
    simp only [Admissible, Heap.Admissible, hst.live]

theorem step_stores (h0 : 0 < start) (hi : Heap.Inv start size h) (hst : w.Stores h) {ev : Event}
    (hs : (system start size).step w ev w') :
    w'.Stores h ∨ ∃ op h', (Heap.system start size).step h op h' ∧ w'.Stores h' := by
  cases ev with
  | write bytes =>
    obtain ⟨hw,rfl⟩ := hs
    exact .inl (write_stores hi hst hw)
  | op op =>
    obtain ⟨hadm,ptr,n,he⟩ := hs
    rw [admissible_iff hst] at hadm
    have hr := exec_refines h0 hi hst hadm
    have hen := he (max n (h.free.length + 1)) (le_max_left _ _)
    have hlt : h.free.length < max n (h.free.length + 1) := (Nat.lt_succ_self _).trans_le (le_max_right _ _)
    cases hx : h.exec op with
    | error e =>
      rw [hx] at hr
      rw [hr _ hlt] at hen
      cases hen
    | ok r =>
      rw [hx] at hr
      obtain ⟨w₁,hw₁,hst₁,_⟩ := hr
      rw [hw₁ _ hlt] at hen
      cases hen
      exact .inr ⟨op,r.2,⟨hadm,r.1,hx⟩,hst₁⟩

/-- Every reachable memory stores the free list of a reachable list state. -/
theorem reachable_stores (hs : nodeAlign ∣ start) (hz : nodeAlign ∣ size) (hmin : nodeSize ≤ size)
    (h0 : 0 < start) (hr : (system start size).Reachable w) :
    ∃ h, (Heap.system start size).Reachable h ∧ w.Stores h := by
  refine hr.invariant (P := fun w => ∃ h, (Heap.system start size).Reachable h ∧ w.Stores h) ?_ ?_
  · intro w hw
    obtain ⟨h,hh,hst⟩ := init_stores hmin h0 hw
    exact ⟨h,.of_init hh,hst⟩
  · rintro w ev w' ⟨h,hh,hst⟩ hstep
    rcases step_stores h0 (Heap.inv_reachable hs hz hmin hh) hst hstep with hst' | ⟨op,h',hop,hst'⟩
    · exact ⟨h,hh,hst'⟩
    · exact ⟨h',hh.step hop,hst'⟩

end Steps

/-- In every run the stored pointers lead from the head through the sorted free list of a list run
with the same live allocations. Every operation does to memory what it does to that list, and changes
no byte of a block that is live before and after it. No memory starts at the null address. -/
theorem memory_refines_free_list {start size : Nat} (hs : 8 ∣ start) (hz : 8 ∣ size) (hmin : 16 ≤ size)
    (h0 : 0 < start) {w : World} (hr : (system start size).Reachable w) :
    ∃ h, (Heap.system start size).Reachable h ∧ h.live = w.live ∧
      (h.free.Pairwise fun b c => b.start < c.start) ∧
      (∀ fuel, h.free.length < fuel → w.memory.follow fuel w.memory.head = some h.free) ∧
      ∀ op, w.Admissible op →
        match h.exec op with
        | .error e => ∀ fuel, h.free.length < fuel → w.exec fuel op = .error e
        | .ok (ptr,h') => ∃ w', (∀ fuel, h.free.length < fuel → w.exec fuel op = .ok (some (ptr,w'))) ∧
            (system start size).Reachable w' ∧ h'.live = w'.live ∧
            (h'.free.Pairwise fun b c => b.start < c.start) ∧
            (∀ fuel, h'.free.length < fuel → w'.memory.follow fuel w'.memory.head = some h'.free) ∧
            ∀ a ∈ w.live, a ∈ w'.live → ∀ x, a.block.Has x → w'.memory.bytes x = w.memory.bytes x := by
  obtain ⟨h,hh,hst⟩ := reachable_stores hs hz hmin h0 hr
  have hi := Heap.inv_reachable hs hz hmin hh
  refine ⟨h,hh,hst.live.symm,hi.separated.sorted,fun fuel hf => hst.chain.follow hf,?_⟩
  intro op hw
  have hadm := (admissible_iff hst op).mp hw
  have href := exec_refines h0 hi hst hadm
  cases hx : h.exec op with
  | error e =>
    rw [hx] at href
    exact href
  | ok r =>
    obtain ⟨ptr,h'⟩ := r
    rw [hx] at href
    obtain ⟨w',he,hst',hkeep⟩ := href
    have hi' : Heap.Inv start size h' := Heap.inv_step hi ⟨hadm,ptr,hx⟩
    refine ⟨w',he,hr.step (a := .op op) ⟨hw,ptr,h.free.length + 1,he⟩,hst'.live.symm,hi'.separated.sorted,
      fun fuel hf => hst'.chain.follow hf,?_⟩
    intro a ha ha' x hax
    rw [hst.live] at ha
    rw [hst'.live] at ha'
    refine hkeep x (fun hc => ((hi.covers x).mp hc).2.1 ⟨a.block,List.mem_map_of_mem ha,hax⟩) ?_
    intro c hop hcx
    subst hop
    obtain ⟨h₁,he₁,_,hl₁,_⟩ := Heap.inv_dealloc hi hadm
    rw [hx] at he₁
    cases he₁
    rw [hl₁] at ha'
    exact (Heap.covers_erase hi hadm x).2 ⟨hcx,a.block,List.mem_map_of_mem ha',hax⟩

/-- A run over memory beside the run over lists that it stores. -/
def Follows (start size : Nat) (w : World) (h : Heap) : Prop :=
  (system start size).Reachable w ∧ (Heap.system start size).Reachable h ∧ w.Stores h

/-- An operation that the list run can do is a step of the memory. -/
private theorem Follows.exec {start size : Nat} (hs : 8 ∣ start) (hz : 8 ∣ size) (hmin : 16 ≤ size) (h0 : 0 < start)
    {w : World} {h h' : Heap} (hr : Follows start size w h) (op : Heap.Op) {ptr : Option Nat} (hadm : h.Admissible op)
    (he : h.exec op = .ok (ptr,h')) : ∃ w', Follows start size w' h' := by
  obtain ⟨hw,hh,hst⟩ := hr
  have href := exec_refines h0 (Heap.inv_reachable hs hz hmin hh) hst hadm
  rw [he] at href
  obtain ⟨w',hw',hst',_⟩ := href
  exact ⟨w',hw.step (a := .op op) ⟨(admissible_iff hst op).mpr hadm,ptr,_,hw'⟩,hh.step ⟨hadm,ptr,he⟩,hst'⟩

/-- A heap of 64 zero bytes at 4096 behind `init`. -/
def sampleWorld : World :=
  ⟨(((Memory.mk (fun _ => 0) 0).setSize 4096 64).setNext (.node 4096) 0).setNext .head 4096,4096,4160,[]⟩

def sampleLayout : Layout := ⟨16,8,⟨3,rfl⟩,by decide⟩

/-- The heap behind two allocations and the release of the first one. -/
def sampleHeap : Heap := ⟨⟨[⟨4096,16⟩,⟨4128,32⟩],4096,4160⟩,[⟨4112,sampleLayout⟩],[⟨4112,0⟩,⟨4096,0⟩]⟩

/-- Two allocations, the release of the first one and a write of the client into the second. -/
private theorem sampleHeap_stored :
    ∃ w, (system 4096 64).Reachable w ∧ w.Stores sampleHeap ∧ w.memory.bytes 4112 = 7 := by
  have hw₀ : (system 4096 64).init sampleWorld := ⟨1,fun _ => 0,rfl⟩
  have hexec : ∀ {w h h'}, Follows 4096 64 w h → ∀ op, h.Admissible op → ∀ {ptr}, h.exec op = .ok (ptr,h') →
      ∃ w', Follows 4096 64 w' h' :=
    fun hr op hadm _ he => Follows.exec (by decide) (by decide) (by decide) (by decide) hr op hadm he
  obtain ⟨_,⟨_,hinit,rfl⟩,hst₀⟩ := init_stores (by decide) (by decide) hw₀
  cases hinit
  have h₀ : Follows 4096 64 sampleWorld ⟨⟨[⟨4096,64⟩],4096,4160⟩,[],[]⟩ := ⟨.of_init hw₀,.of_init ⟨_,rfl,rfl⟩,hst₀⟩
  obtain ⟨w₁,h₁⟩ : ∃ w, Follows 4096 64 w ⟨⟨[⟨4112,48⟩],4096,4160⟩,[⟨4096,sampleLayout⟩],[⟨4096,0⟩]⟩ :=
    hexec h₀ (.alloc sampleLayout) trivial rfl
  obtain ⟨w₂,h₂⟩ : ∃ w, Follows 4096 64 w
      ⟨⟨[⟨4128,32⟩],4096,4160⟩,[⟨4112,sampleLayout⟩,⟨4096,sampleLayout⟩],[⟨4112,0⟩,⟨4096,0⟩]⟩ :=
    hexec h₁ (.alloc sampleLayout) trivial rfl
  obtain ⟨w₃,hr,hh,hst⟩ : ∃ w, Follows 4096 64 w sampleHeap :=
    hexec h₂ (.dealloc ⟨4096,sampleLayout⟩) (by simp [Heap.Admissible]) rfl
  have hwrite : ∀ x, ¬ w₃.Writable x → Function.update w₃.memory.bytes 4112 7 x = w₃.memory.bytes x := by
    intro x hx
    apply Function.update_of_ne
    rintro rfl
    refine hx (.inl ?_)
    rw [hst.live]
    exact ⟨⟨4112,16⟩,List.mem_singleton_self _,by decide,by decide⟩
  have hstores := write_stores (Heap.inv_reachable (by decide) (by decide) (by decide) hh) hst hwrite
  refine ⟨_,hr.step (a := .write _) ⟨hwrite,rfl⟩,hstores,?_⟩
  exact Function.update_self (f := w₃.memory.bytes) 4112 7

/-- The next allocation takes the block that was released, and the second one keeps its bytes. -/
theorem memory_refines_free_list_sample : ∃ w w', (system 4096 64).Reachable w ∧
    w.live = [⟨4112,sampleLayout⟩] ∧ w.memory.bytes 4112 = 7 ∧
    w.memory.follow 3 w.memory.head = some [⟨4096,16⟩,⟨4128,32⟩] ∧
    w.exec 3 (.alloc sampleLayout) = .ok (some (some 4096,w')) ∧
    w'.memory.follow 3 w'.memory.head = some [⟨4128,32⟩] ∧ w'.memory.bytes 4112 = 7 := by
  obtain ⟨w,hr,hst,hbyte⟩ := sampleHeap_stored
  obtain ⟨h,hh,hlive,_,hfollow,hops⟩ := memory_refines_free_list (by decide) (by decide) (by decide) (by decide) hr
  have hlist : w.memory.follow 3 w.memory.head = some [⟨4096,16⟩,⟨4128,32⟩] := hst.chain.follow (by decide)
  have hfree : h.free = [⟨4096,16⟩,⟨4128,32⟩] := by
    have hfuel := hfollow (h.free.length + 3) (by omega)
    rw [hst.chain.follow (by change 2 < _; omega),Option.some.injEq] at hfuel
    exact hfuel.symm
  have hexec : h.exec (.alloc sampleLayout) = .ok (some 4096,⟨⟨[⟨4128,32⟩],h.allocator.heapStart,h.allocator.heapEnd⟩,
      ⟨4096,sampleLayout⟩ :: h.live,⟨4096,0⟩ :: h.gaps⟩) := by
    rw [Heap.exec,hfree]
    rfl
  have hop := hops (.alloc sampleLayout) trivial
  rw [hexec] at hop
  obtain ⟨w',hw',_,hlive',_,hfollow',hkeep⟩ := hop
  have hlist' : w'.memory.follow 3 w'.memory.head = some [⟨4128,32⟩] := hfollow' 3 (by change 1 < _; decide)
  refine ⟨w,w',hr,hst.live,hbyte,hlist,hw' 3 (by rw [hfree]; decide),hlist',?_⟩
  have hbefore : (⟨4112,sampleLayout⟩ : Live) ∈ w.live := by
    rw [hst.live]
    exact List.mem_singleton_self _
  rw [hkeep ⟨4112,sampleLayout⟩ hbefore (by rw [← hlive',hlive]; exact List.mem_cons_of_mem _ hbefore) 4112
    (by decide),hbyte]

end World

end HeineOS.LinkedList
