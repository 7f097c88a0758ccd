import HeineOS.Allocator.HeapRuns

/-! When `alloc` returns, and that it is first fit then. The search rounds up the start of every block that it
reaches with an addition that may overflow, and `size_align` may fail before. -/
namespace HeineOS.LinkedList
open Lib

/-- The search reaches the block: no block before it fits. -/
def Reached (size align : Nat) (free : List Block) (b : Block) : Prop :=
  ∃ pre post, free = pre ++ b :: post ∧ ∀ c ∈ pre, ¬ Fits size align c

/-- The first block is reached, and the others if it does not fit. -/
theorem forall_reached_cons {size align : Nat} {b : Block} {free : List Block} {P : Block → Prop} :
    (∀ c, Reached size align (b :: free) c → P c) ↔
      P b ∧ (¬ Fits size align b → ∀ c, Reached size align free c → P c) := by
  constructor
  · intro h
    refine ⟨h b ⟨[],free,rfl,fun _ hc => nomatch hc⟩,?_⟩
    intro hb c hc
    obtain ⟨pre,post,hs,hpre⟩ := hc
    apply h c
    refine ⟨b :: pre,post,by rw [hs]; rfl,?_⟩
    intro d hd
    rcases List.mem_cons.mp hd with hd | hd
    · rw [hd]
      exact hb
    · exact hpre d hd
  · intro h c hc
    obtain ⟨pre,post,hs,hpre⟩ := hc
    cases pre with
    | nil =>
      obtain ⟨rfl,-⟩ := List.cons.inj hs
      exact h.1
    | cons d pre =>
      obtain ⟨rfl,rfl⟩ := List.cons.inj hs
      apply h.2 (hpre b List.mem_cons_self)
      exact ⟨pre,post,rfl,fun e he => hpre e (List.mem_cons_of_mem _ he)⟩

/-- The search ends unless rounding up overflows for a block that it reaches. -/
theorem findFreeBlock_ok_iff (size : Nat) {k : Nat} (hk : k ≤ 63) (free : List Block) (hb : ∀ b ∈ free, Bounded b) :
    (∃ r, findFreeBlock size (2^k) free = .ok r) ↔
      ∀ b, Reached size (2^k) free b → b.start + 2^k < 2^64 := by
  induction free with
  | nil =>
    refine ⟨fun _ b hr => ?_,fun _ => ⟨_,rfl⟩⟩
    obtain ⟨pre,post,hs,-⟩ := hr
    exact absurd hs (by simp)
  | cons b free ih =>
    have ih := ih fun c hc => hb c (List.mem_cons_of_mem _ hc)
    have hcheck := checkBlockForAlloc_eq size (hb b List.mem_cons_self) hk
    rw [forall_reached_cons]
    by_cases hov : b.start + 2^k < 2^64
    · rw [if_pos hov] at hcheck
      by_cases hfit : Fits size (2^k) b
      · rw [if_pos hfit] at hcheck
        have hfound : findFreeBlock size (2^k) (b :: free) = .ok (some ((b,roundUp b.start (2^k)),free)) := by
          simp only [findFreeBlock, hcheck, bind, Except.bind]
          rfl
        exact ⟨fun _ => ⟨hov,fun hn => absurd hfit hn⟩,fun _ => ⟨_,hfound⟩⟩
      · rw [if_neg hfit] at hcheck
        have hrest : (∃ r, findFreeBlock size (2^k) (b :: free) = .ok r) ↔
            ∃ r, findFreeBlock size (2^k) free = .ok r := by
          simp only [findFreeBlock, hcheck, bind, Except.bind]
          cases findFreeBlock size (2^k) free with
          | error e =>
            constructor
            · rintro ⟨r,hr⟩
              cases hr
            · rintro ⟨r,hr⟩
              cases hr
          | ok r => exact ⟨fun _ => ⟨_,rfl⟩,fun _ => ⟨_,rfl⟩⟩
        rw [hrest,ih]
        exact ⟨fun h => ⟨hov,fun _ => h⟩,fun h => h.2 hfit⟩
    · rw [if_neg hov] at hcheck
      have herr : findFreeBlock size (2^k) (b :: free) = .error .arithmetic := by
        simp only [findFreeBlock, hcheck, bind, Except.bind]
      refine ⟨fun h => ?_,fun h => absurd h.1 hov⟩
      obtain ⟨r,hr⟩ := h
      rw [herr] at hr
      cases hr

/-- `size_align` fails exactly if the size leaves no room to round it up to the alignment of a node. -/
theorem sizeAlign_ok_iff (layout : Layout) :
    (∃ r, sizeAlign layout = .ok r) ↔ layout.size + max layout.align nodeAlign ≤ 2^63 := by
  have hpow : (max layout.align nodeAlign).isPowerOfTwo := by
    rcases max_choice layout.align nodeAlign with h | h
    · rw [h]
      exact layout.align_pow
    · rw [h]
      exact ⟨3,rfl⟩
  rw [sizeAlign,Layout.alignTo,Layout.fromSizeAlign]
  by_cases hle : layout.size + max layout.align nodeAlign ≤ 2^63
  · rw [dif_pos ⟨hpow,hle⟩]
    exact ⟨fun _ => hle,fun _ => ⟨_,rfl⟩⟩
  · rw [dif_neg fun h => hle h.2]
    refine ⟨fun h => ?_,fun h => absurd h hle⟩
    obtain ⟨r,hr⟩ := h
    cases hr

theorem alloc_ok_iff_find {free : List Block} (hsep : Separated free) (hb : ∀ b ∈ free, Bounded b) {layout : Layout}
    {k : Nat} (hk : Served layout k) :
    (∃ r, alloc free layout = .ok r) ↔ ∃ r, findFreeBlock (blockSize layout) (2^k) free = .ok r := by
  rcases alloc_served hsep hb hk with ⟨hf,ha⟩ | ⟨hf,⟨ha,-⟩ | ⟨ptr,free',pre,node,post,ha,-⟩⟩
  · rw [hf,ha]
    exact ⟨fun h => absurd h (by simp),fun h => absurd h (by simp)⟩
  · exact ⟨fun _ => hf,fun _ => ⟨_,ha⟩⟩
  · exact ⟨fun _ => hf,fun _ => ⟨_,ha⟩⟩

/-- What first fit means for one request: the null pointer and the same list if no block fits, and otherwise the
fitting block of lowest address, replaced by what is left of it. -/
structure FirstFit (free : List Block) (layout : Layout) (size align : Nat) : Prop where
  null_iff : (∃ free', alloc free layout = .ok (none,free')) ↔ ∀ b ∈ free, ¬ Fits size align b
  unchanged : ∀ free', alloc free layout = .ok (none,free') → free' = free
  takes : (∃ b ∈ free, Fits size align b) → ∃ pre node post, free = pre ++ node :: post ∧ Fits size align node ∧
    (∀ b ∈ free, Fits size align b → node.start ≤ b.start) ∧
    alloc free layout = .ok (some (roundUp node.start align),
      pre ++ remainder node (roundUp node.start align + size) ++ post)

/-- A request that is served is first fit. -/
theorem firstFit_of_ok {free : List Block} (hsep : Separated free) (hb : ∀ b ∈ free, Bounded b) {layout : Layout}
    {k : Nat} (hk : Served layout k) (hok : ∃ r, alloc free layout = .ok r) :
    FirstFit free layout (blockSize layout) (2^k) := by
  rcases alloc_served hsep hb hk with ⟨-,ha⟩ | ⟨-,⟨ha,hnone⟩ | ⟨ptr,free',pre,node,post,ha,hc⟩⟩
  · obtain ⟨r,hr⟩ := hok
    rw [ha] at hr
    cases hr
  · constructor
    case null_iff => exact ⟨fun _ => hnone,fun _ => ⟨free,ha⟩⟩
    case unchanged =>
      intro free' h
      rw [ha] at h
      cases h
      rfl
    case takes =>
      rintro ⟨b,hbm,hfit⟩
      exact absurd hfit (hnone b hbm)
  · have hptr := hc.ptr_eq
    have hresult := hc.result
    constructor
    case null_iff =>
      constructor
      · rintro ⟨l,hl⟩
        rw [ha] at hl
        cases hl
      · exact fun h => absurd hc.fits (h node hc.node_mem)
    case unchanged =>
      intro l hl
      rw [ha] at hl
      cases hl
    case takes =>
      intro _
      refine ⟨pre,node,post,hc.split,hc.fits,?_,?_⟩
      · intro b hbm hfit
        have hs := hsep
        rw [hc.split] at hbm hs
        rcases List.mem_append.mp hbm with hpre | hbm
        · exact absurd hfit (hc.first b hpre)
        · rcases List.mem_cons.mp hbm with hb' | hpost
          · rw [hb']
          · have hgap := (hs.sublist (List.sublist_append_right _ _)).head_gap hpost
            rw [Span.stop] at hgap
            omega
      · rw [ha,hresult,hptr]

namespace Heap
variable {start size : Nat} {h : Heap}

theorem alloc_returns_iff (hs : 8 ∣ start) (hz : 8 ∣ size) (hmin : 16 ≤ size) (hr : (system start size).Reachable h)
    (layout : Layout) :
    (∃ r, LinkedList.alloc h.free layout = .ok r) ↔ layout.size + max layout.align 8 ≤ 2^63 ∧
      ∀ b, Reached (blockSize layout) (max layout.align 8) h.free b → b.start + max layout.align 8 < 2^64 := by
  have hi := inv_reachable hs hz hmin hr
  have hb : ∀ b ∈ h.free, Bounded b := fun b hb => hi.bounded hb
  rcases sizeAlign_cases layout with he | ⟨k,hk⟩
  · have hfail : ¬ layout.size + max layout.align 8 ≤ 2^63 := by
      intro hle
      obtain ⟨r,hr⟩ := (sizeAlign_ok_iff layout).mpr hle
      rw [he] at hr
      cases hr
    refine ⟨fun hok => ?_,fun hok => absurd hok.1 hfail⟩
    obtain ⟨r,hr⟩ := hok
    simp only [LinkedList.alloc, he, bind, Except.bind] at hr
    cases hr
  · have hle : layout.size + max layout.align 8 ≤ 2^63 := (sizeAlign_ok_iff layout).mp ⟨_,hk.eq_ok⟩
    have halign : 2^k = max layout.align 8 := hk.align_eq
    rw [alloc_ok_iff_find hi.separated hb hk,findFreeBlock_ok_iff _ hk.exp_le _ hb,halign]
    exact ⟨fun hall => ⟨hle,hall⟩,fun hall => hall.2⟩

theorem alloc_returns_iff_sample :
    (system 4104 8184).Reachable sampleHeap ∧ ∃ r, LinkedList.alloc sampleHeap.free sampleLayout = .ok r := by
  have hr : (system 4104 8184).Reachable sampleHeap := ⟨_,_,sampleHeap_init,sampleHeap_run⟩
  refine ⟨hr,(alloc_returns_iff (by decide) (by decide) (by decide) hr sampleLayout).mpr ⟨by decide,?_⟩⟩
  intro b hb
  obtain ⟨pre,post,hs,-⟩ := hb
  have hm : b ∈ sampleHeap.free := by simp [hs]
  rw [List.mem_singleton.mp hm]
  decide

/-- The largest size that a layout of alignment 1 admits. -/
def hugeLayout : Layout := ⟨2^63 - 1,1,by decide,by decide⟩

/-- The request is refused by a panic and not by the null pointer. -/
theorem alloc_panics :
    (system 4104 8184).Reachable sampleHeap ∧
      LinkedList.alloc sampleHeap.free hugeLayout = .error .adjustingAlignmentFailed :=
  ⟨⟨_,_,sampleHeap_init,sampleHeap_run⟩,rfl⟩

theorem alloc_first_fit_iff (hs : 8 ∣ start) (hz : 8 ∣ size) (hmin : 16 ≤ size) (hr : (system start size).Reachable h)
    {layout : Layout} {n align : Nat} (hl : sizeAlign layout = .ok (n,align)) :
    FirstFit h.free layout n align ↔ ∀ b, Reached n align h.free b → b.start + align < 2^64 := by
  have hi := inv_reachable hs hz hmin hr
  have hb : ∀ b ∈ h.free, Bounded b := fun b hb => hi.bounded hb
  rcases sizeAlign_cases layout with he | ⟨k,hk⟩
  · rw [he] at hl
    cases hl
  · have heq := hk.eq_ok
    rw [hl] at heq
    obtain ⟨rfl,rfl⟩ := Prod.mk.inj (Except.ok.inj heq)
    rw [← findFreeBlock_ok_iff _ hk.exp_le _ hb,← alloc_ok_iff_find hi.separated hb hk]
    constructor
    · intro hfirst
      by_cases hfit : ∀ b ∈ h.free, ¬ Fits (blockSize layout) (2^k) b
      · obtain ⟨l,hl⟩ := hfirst.null_iff.mpr hfit
        exact ⟨_,hl⟩
      · push Not at hfit
        obtain ⟨pre,node,post,-,-,-,ha⟩ := hfirst.takes hfit
        exact ⟨_,ha⟩
    · exact fun hok => firstFit_of_ok hi.separated hb hk hok

theorem alloc_first_fit_iff_sample :
    sizeAlign sampleLayout = .ok (128,64) ∧ FirstFit sampleHeap.free sampleLayout 128 64 := by
  have hr : (system 4104 8184).Reachable sampleHeap := ⟨_,_,sampleHeap_init,sampleHeap_run⟩
  have hl : sizeAlign sampleLayout = .ok (128,64) := rfl
  refine ⟨hl,(alloc_first_fit_iff (by decide) (by decide) (by decide) hr hl).mpr ?_⟩
  intro b hb
  obtain ⟨pre,post,hs,-⟩ := hb
  have hm : b ∈ sampleHeap.free := by simp [hs]
  rw [List.mem_singleton.mp hm]
  decide

/-- A heap in the last page of the address space, and a layout with the alignment of a page. -/
def topHeap : Heap := ⟨⟨[⟨2^64 - 4096,4088⟩],2^64 - 4096,2^64 - 8⟩,[],[]⟩
def pageLayout : Layout := ⟨4096,4096,⟨12,rfl⟩,by decide⟩

/-- No block fits, and rounding up the start of the only block overflows. -/
theorem alloc_first_fit_fails :
    (system (2^64 - 4096) 4088).Reachable topHeap ∧ sizeAlign pageLayout = .ok (4096,4096) ∧
      LinkedList.alloc topHeap.free pageLayout = .error .arithmetic ∧
      ¬ FirstFit topHeap.free pageLayout 4096 4096 := by
  have herr : LinkedList.alloc topHeap.free pageLayout = .error .arithmetic := rfl
  refine ⟨⟨topHeap,[],⟨_,rfl,rfl⟩,.nil _⟩,rfl,herr,?_⟩
  intro hf
  have hnone : ∀ b ∈ topHeap.free, ¬ Fits 4096 4096 b := by
    intro b hb
    rw [List.mem_singleton.mp hb]
    decide
  obtain ⟨l,hl⟩ := hf.null_iff.mpr hnone
  rw [herr] at hl
  cases hl

end Heap

end HeineOS.LinkedList
