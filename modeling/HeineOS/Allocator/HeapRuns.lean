import HeineOS.Allocator.Heap

/-! Safety of the allocator over whole runs, and the shape of its free list: the maximal
runs of the free bytes, whatever the order of allocations and frees. -/
namespace HeineOS.LinkedList.Heap
open Lib System

/-- The allocation is aligned, large enough and inside the heap. -/
def Placed (h : Heap) (a : Live) : Prop :=
  a.layout.align ∣ a.ptr ∧ a.layout.size ≤ blockSize a.layout ∧
    h.allocator.heapStart ≤ a.ptr ∧ a.ptr + blockSize a.layout ≤ h.allocator.heapEnd

/-- The two panics of the list code. -/
def ListPanic (e : Panic) : Prop := (∃ addr, e = .doubleFree addr) ∨ ∃ p n, e = .cannotMerge p n

theorem exec_alloc_live {h h' : Heap} {layout : Layout} {ptr : Nat}
    (he : h.exec (.alloc layout) = .ok (some ptr,h')) : h'.live = ⟨ptr,layout⟩ :: h.live := by
  cases ha : LinkedList.alloc h.free layout with
  | error e =>
    simp only [exec, ha, bind, Except.bind] at he
    cases he
  | ok r =>
    obtain ⟨p,free'⟩ := r
    cases p with
    | none =>
      simp only [exec, ha, bind, Except.bind, pure, Except.pure] at he
      cases he
    | some p =>
      simp only [exec, ha, bind, Except.bind, pure, Except.pure] at he
      cases he
      rfl

/-- In every run from `init` each returned pointer is placed inside the heap with the alignment
asked for, live blocks are disjoint from each other and from the free list, and neither panic
of the list code fires. -/
theorem heap_runs_safe {start size : Nat} (hs : 8 ∣ start) (hz : 8 ∣ size) (hmin : 16 ≤ size) :
    (∀ e, Allocator.new.init start size = .error e → ¬ ListPanic e) ∧
    ∀ h, (system start size).Reachable h →
      (h.allocator.heapStart = start ∧ h.allocator.heapEnd = start + size) ∧
      (∀ a ∈ h.live, h.Placed a) ∧
      (h.live.Pairwise fun a b => a.block.Apart b.block) ∧
      (∀ a ∈ h.live, ∀ b ∈ h.free, a.block.Apart b) ∧
      (∀ layout ptr h', h.exec (.alloc layout) = .ok (some ptr,h') →
        h'.live = ⟨ptr,layout⟩ :: h.live ∧ h'.Placed ⟨ptr,layout⟩ ∧
        (∀ a ∈ h.live, a.block.Apart (Live.block ⟨ptr,layout⟩)) ∧
        ∀ b ∈ h'.free, b.Apart (Live.block ⟨ptr,layout⟩)) ∧
      ∀ op, h.Admissible op → ∀ e, h.exec op = .error e → ¬ ListPanic e := by
  have hnot : ∀ e, e = .adjustingAlignmentFailed ∨ e = .arithmetic → ¬ ListPanic e := by
    rintro e (rfl | rfl) (⟨_,h⟩ | ⟨_,_,h⟩) <;> cases h
  have hplaced : ∀ h a, Inv start size h → a ∈ h.live → h.Placed a := by
    intro h a hi ha
    obtain ⟨k,hk,hptr⟩ := hi.served a ha
    have hin := hi.live_inside ha
    rw [← hi.bounds.2,← hi.bounds.1] at hin
    exact ⟨hk.align_dvd.trans hptr,hk.size_le,hin.1,hin.2⟩
  constructor
  · intro e he
    rw [init_cases] at he
    split at he
    · cases he
    · cases he
      exact hnot _ (.inr rfl)
  intro h hr
  have hi := inv_reachable hs hz hmin hr
  refine ⟨hi.bounds,fun a ha => hplaced h a hi ha,hi.apart,
    fun a ha b hb => (hi.live_free_apart ha hb).symm,?_,fun op hadm e he => hnot e (exec_error hi hadm he)⟩
  intro layout ptr h' he
  have hi' : Inv start size h' := inv_alloc hi he
  have hl := exec_alloc_live he
  have hm : ⟨ptr,layout⟩ ∈ h'.live := by rw [hl]; simp
  refine ⟨hl,hplaced h' _ hi' hm,?_,fun b hb => hi'.live_free_apart hm hb⟩
  intro a ha
  have hp := hi'.apart
  rw [hl,List.pairwise_cons] at hp
  exact (hp.1 a ha).symm

/-- A layout of 100 bytes at 64, taken from an 8 KiB heap that starts 8 bytes past such a boundary. -/
def sampleLayout : Layout := ⟨100,64,by decide,by decide⟩

def sampleHeap : Heap :=
  ⟨⟨[⟨4288,8000⟩],4104,12288⟩,[⟨4160,sampleLayout⟩],[⟨4104,56⟩]⟩

theorem sampleHeap_run : Run (system 4104 8184) ⟨⟨[⟨4104,8184⟩],4104,12288⟩,[],[]⟩
    [.alloc sampleLayout] sampleHeap :=
  .cons ⟨trivial,some 4160,rfl⟩ (.nil _)

theorem sampleHeap_init : (system 4104 8184).init ⟨⟨[⟨4104,8184⟩],4104,12288⟩,[],[]⟩ :=
  ⟨_,rfl,rfl⟩

theorem heap_runs_safe_sample :
    (system 4104 8184).Reachable sampleHeap ∧ ∀ a ∈ sampleHeap.live, sampleHeap.Placed a := by
  have hr : (system 4104 8184).Reachable sampleHeap := ⟨_,_,sampleHeap_init,sampleHeap_run⟩
  exact ⟨hr,((heap_runs_safe (by decide) (by decide) (by decide)).2 sampleHeap hr).2.1⟩

/-- The heap bytes that are neither live nor skipped for alignment. -/
def freeBytes (h : Heap) : Set Nat :=
  {x | (h.allocator.heapStart ≤ x ∧ x < h.allocator.heapEnd) ∧
    ¬ Covers h.liveBlocks x ∧ ¬ Covers h.gaps x}

/-- Free the given allocations one after another. -/
def freeAll (h : Heap) : List Live → Checked Heap
  | [] => return h
  | a :: as => do
    let (_,h') ← h.exec (.dealloc a)
    h'.freeAll as

section
variable {start size : Nat}

/-- The invariant fixes the free list: it depends on the live blocks and the gaps only. -/
theorem Inv.free_eq {h h' : Heap} (hi : Inv start size h) (hi' : Inv start size h')
    (hl : h.live.Perm h'.live) (hg : h.gaps = h'.gaps) : h.free = h'.free := by
  apply hi.separated.ext hi'.separated
  intro x
  rw [hi.covers,hi'.covers,hg,Covers.perm (show h.liveBlocks.Perm h'.liveBlocks from hl.map _)]

/-- Freeing live allocations succeeds and removes exactly them. -/
theorem freeAll_ok (as : List Live) {h : Heap} (hi : Inv start size h) (hsub : as.Subperm h.live) :
    ∃ h', h.freeAll as = .ok h' ∧ Inv start size h' ∧ (as ++ h'.live).Perm h.live ∧ h'.gaps = h.gaps := by
  induction as generalizing h with
  | nil => exact ⟨h,rfl,hi,.refl _,rfl⟩
  | cons a as ih =>
    have ha : a ∈ h.live := hsub.subset (by simp)
    obtain ⟨h₁,he₁,hi₁,hl₁,hg₁⟩ := inv_dealloc hi ha
    have hsub₁ : as.Subperm h₁.live := by
      have := hsub.erase a
      rwa [List.erase_cons_head,← hl₁] at this
    obtain ⟨h₂,he₂,hi₂,hl₂,hg₂⟩ := ih hi₁ hsub₁
    refine ⟨h₂,?_,hi₂,?_,hg₂.trans hg₁⟩
    · simp only [freeAll, he₁, bind, Except.bind]
      exact he₂
    · exact (hl₂.cons a).trans (hl₁ ▸ (List.perm_cons_erase ha).symm)

/-- Layouts of alignment at most 8 skip nothing. -/
theorem skipped_none {h h' : Heap} {op : Op} (hi : Inv start size h)
    (hs : (system start size).step h op h') (hop : ∀ l, op = .alloc l → l.align ≤ 8)
    (hg : total h.gaps = 0) : total h'.gaps = 0 := by
  obtain ⟨hadm,ptr,he⟩ := hs
  cases op with
  | dealloc a =>
    obtain ⟨h₁,he₁,_,_,hg₁⟩ := inv_dealloc hi hadm
    rw [he₁] at he
    cases he
    rw [hg₁,hg]
  | alloc layout =>
    rcases alloc_cases hi.separated (fun b hb => hi.bounded hb) layout with
      ha | ha | ⟨k,hk,⟨ha,_⟩ | ⟨p,free',pre,node,post,ha,hc⟩⟩ <;>
      simp only [exec, ha, bind, Except.bind, pure, Except.pure] at he <;> cases he
    · exact hg
    · have hpow : 2^k = 8 := by rw [hk.align_eq]; exact max_eq_right (hop layout rfl)
      have hp : p = node.start := by
        rw [hc.ptr_eq,hpow]
        exact roundUp_of_dvd (by decide) (hi.good node hc.node_mem).start_dvd
      rw [total_cons,hg,hc.gap_eq,hp]
      simp

theorem run_skipped_none {h h' : Heap} {ops : List Op} (hr : Run (system start size) h ops h')
    (hi : Inv start size h) (hops : ∀ l, Op.alloc l ∈ ops → l.align ≤ 8) (hg : total h.gaps = 0) :
    total h'.gaps = 0 := by
  induction hr with
  | nil => exact hg
  | cons hs _ ih =>
    exact ih (inv_step hi hs) (fun l hl => hops l (by simp [hl]))
      (skipped_none hi hs (fun l hl => hops l (by simp [hl])) hg)

theorem covers_of_total_zero {l : List Block} (h : total l = 0) (x : Nat) : ¬ Covers l x := by
  induction l with
  | nil => simp
  | cons b l ih =>
    rw [total_cons] at h
    rw [covers_cons]
    rintro (hx | hx)
    · simp only [Span.Has, Span.stop] at hx
      omega
    · exact ih (by omega) hx

end

/-- At the end of every run the free list lists the maximal runs of the free bytes in address
order: free, live and skipped bytes add up to the heap, the order of frees does not matter, and
with alignments up to 8 freeing everything gives back the single block. -/
theorem free_list_canonical {start size : Nat} (hs : 8 ∣ start) (hz : 8 ∣ size) (hmin : 16 ≤ size)
    {h₀ h : Heap} {ops : List Op} (hinit : (system start size).init h₀)
    (hrun : Run (system start size) h₀ ops h) :
    (h.free.Pairwise fun b c => b.start < c.start) ∧
    (∀ b, b ∈ h.free ↔ IsMaximalRun h.freeBytes b) ∧
    (h.free.Pairwise fun b c => b.stop < c.start) ∧
    (∀ b ∈ h.free, 16 ≤ b.size) ∧
    size = total h.free + total h.liveBlocks + total h.gaps ∧
    (∀ as bs : List Live, as.Perm bs → as.Subperm h.live →
      ∃ h₁ h₂, h.freeAll as = .ok h₁ ∧ h.freeAll bs = .ok h₂ ∧ h₁.free = h₂.free) ∧
    ((∀ l, Op.alloc l ∈ ops → l.align ≤ 8) → ∀ as : List Live, as.Perm h.live →
      ∃ h', h.freeAll as = .ok h' ∧ h'.free = [⟨start,size⟩]) := by
  have hi₀ := inv_init hs hz hmin hinit
  have hi : Inv start size h := hrun.invariant (fun _ _ _ hi hst => inv_step hi hst) hi₀
  have hbytes : h.freeBytes = {x | Covers h.free x} := by
    ext x
    simp only [freeBytes, Set.mem_ofPred_eq, hi.bounds.1, hi.bounds.2, hi.covers]
  refine ⟨hi.separated.sorted,?_,hi.separated.gap,fun b hb => (hi.good b hb).size_le,
    hi.total.symm,?_,?_⟩
  · intro b
    rw [hbytes]
    exact hi.separated.mem_iff_maximal b
  · intro as bs hp hsub
    obtain ⟨h₁,he₁,hi₁,hl₁,hg₁⟩ := freeAll_ok as hi hsub
    obtain ⟨h₂,he₂,hi₂,hl₂,hg₂⟩ := freeAll_ok bs hi (hp.symm.subperm.trans hsub)
    have hl : (as ++ h₁.live).Perm (as ++ h₂.live) :=
      hl₁.trans (hl₂.symm.trans (hp.symm.append_right _))
    exact ⟨h₁,h₂,he₁,he₂,hi₁.free_eq hi₂ ((List.perm_append_left_iff as).mp hl) (hg₁.trans hg₂.symm)⟩
  · intro hops as hp
    have hg₀ : total h₀.gaps = 0 := by
      obtain ⟨a,_,rfl⟩ := hinit
      rfl
    obtain ⟨h',he,hi',hl',hg'⟩ := freeAll_ok as hi hp.subperm
    refine ⟨h',he,?_⟩
    have hnil : h'.live = [] := by
      have := hl'.length_eq
      rw [List.length_append,hp.length_eq] at this
      exact List.length_eq_zero_iff.mp (by omega)
    have hgap : ∀ x, ¬ Covers h'.gaps x :=
      covers_of_total_zero (hg' ▸ run_skipped_none hrun hi₀ hops hg₀)
    have hpos : 0 < size := by omega
    apply hi'.separated.ext (Separated.cons_iff.mpr ⟨hpos,by simp,.nil⟩)
    intro x
    rw [hi'.covers]
    simp [liveBlocks, hnil, hgap x, Span.Has]

theorem free_list_canonical_sample :
    (∀ b, b ∈ sampleHeap.free ↔ IsMaximalRun sampleHeap.freeBytes b) ∧
      8184 = total sampleHeap.free + total sampleHeap.liveBlocks + total sampleHeap.gaps := by
  have h := free_list_canonical (by decide) (by decide) (by decide) sampleHeap_init sampleHeap_run
  exact ⟨h.2.1,h.2.2.2.2.1⟩

end HeineOS.LinkedList.Heap
