import HeineOS.Allocator.LinkedList

/-! What the list operations do to a free list of separated blocks below `2^64`. -/
namespace HeineOS.LinkedList
open Lib

/-- A block whose end is an address. -/
def Bounded (b : Block) : Prop := b.stop < 2^64

theorem endAddr_ok {b : Block} (h : Bounded b) : endAddr b = .ok b.stop := Usize.add_ok h

theorem mergeBlocks_ok {prev next : Block} (hadj : prev.stop = next.start) (hn : Bounded next) :
    mergeBlocks prev next = .ok (prev.join next) := by
  have hp : Bounded prev := by unfold Bounded Span.stop at *; omega
  have hs : prev.size + next.size < 2^64 := by unfold Bounded Span.stop at *; omega
  simp only [mergeBlocks, endAddr_ok hp, bind, Except.bind, if_pos hadj, Usize.add_ok hs]
  rfl

private theorem linkBlock_ok {current : Option Block} {node : Block} {next : List Block}
    (hsep : Separated (current.toList ++ next)) (hnode : Bounded node) (hpos : 0 < node.size)
    (hcur : ∀ c ∈ current, c.stop ≤ node.start) (hnext : ∀ b ∈ next, node.stop < b.start) :
    ∃ l, linkBlock current node next = .ok l ∧ Inserted (current.toList ++ next) node l := by
  cases current with
  | none => exact ⟨node :: next,rfl,Inserted.front hsep hpos hnext⟩
  | some cur =>
    have hle := hcur cur rfl
    have hc : Bounded cur := by unfold Bounded Span.stop at *; omega
    have hcpos : 0 < cur.size := hsep.head
    simp only [linkBlock, endAddr_ok hc, bind, Except.bind, hcpos, true_and]
    by_cases hadj : cur.stop = node.start
    · refine ⟨cur.join node :: next,?_,Inserted.join_left hsep hadj hnext⟩
      rw [if_pos hadj,mergeBlocks_ok hadj hnode]
      rfl
    · refine ⟨cur :: node :: next,by rw [if_neg hadj]; rfl,?_⟩
      exact (Inserted.front hsep.tail hpos hnext).cons hsep (by omega)

theorem checkOverlap_ok (node : Block) {next : Block} (hn : Bounded next)
    (h : ¬ (next.start ≤ node.start ∧ node.start < next.stop)) : checkOverlap node next = .ok () := by
  unfold checkOverlap
  by_cases hle : next.start ≤ node.start
  · simp only [ge_iff_le, hle, if_true, endAddr_ok hn, bind, Except.bind,
      if_neg (fun hlt => h ⟨hle,hlt⟩)]
    rfl
  · rw [if_neg hle]
    rfl

private theorem addFreeBlockLoop_ok (node : Block) (hnode : Bounded node) (hpos : 0 < node.size)
    (rest : List Block) (current : Option Block) (hsep : Separated (current.toList ++ rest))
    (hb : ∀ b ∈ rest, Bounded b) (hcur : ∀ c ∈ current, c.stop ≤ node.start)
    (hapart : ∀ b ∈ rest, b.Apart node) :
    ∃ l, addFreeBlockLoop node current rest = .ok l ∧ Inserted (current.toList ++ rest) node l := by
  induction rest generalizing current with
  | nil => exact linkBlock_ok hsep hnode hpos hcur (by simp)
  | cons next rest ih =>
    have hn := hb next (by simp)
    have hnr : Separated (next :: rest) := hsep.sublist (List.sublist_append_right _ _)
    have hnpos := hnr.head
    have hcase : next.stop ≤ node.start ∨ node.stop ≤ next.start := hapart next (by simp)
    have hover := checkOverlap_ok node hn (by unfold Span.stop at *; omega)
    simp only [addFreeBlockLoop, hover, endAddr_ok hnode, bind, Except.bind]
    by_cases hlt : node.stop < next.start
    · rw [if_pos hlt]
      refine linkBlock_ok hsep hnode hpos hcur ?_
      intro b hbm
      rcases List.mem_cons.mp hbm with rfl | hbm
      · exact hlt
      · have := hnr.head_gap hbm
        unfold Span.stop at *
        omega
    rw [if_neg hlt]
    by_cases hadj : node.stop = next.start
    · rw [if_pos hadj,mergeBlocks_ok hadj hn]
      have hjoin : Bounded (node.join next) := by rw [Bounded,Span.join_stop hadj]; exact hn
      have hsep' : Separated (current.toList ++ rest) :=
        hsep.sublist (List.Sublist.append_left (List.sublist_cons_self _ _) _)
      have hgap : ∀ b ∈ rest, (node.join next).stop < b.start := by
        intro b hbm
        rw [Span.join_stop hadj]
        exact hnr.head_gap hbm
      obtain ⟨l,he,hl⟩ := linkBlock_ok hsep' hjoin (by rw [Span.join_size]; omega) hcur hgap
      exact ⟨l,he,hl.of_join_right hadj⟩
    · rw [if_neg hadj]
      have hafter : next.stop ≤ node.start := by omega
      obtain ⟨l,he,hl⟩ := ih (some next) hnr (fun b hbm => hb b (by simp [hbm]))
        (by rintro c ⟨⟩; exact hafter) (fun b hbm => hapart b (by simp [hbm]))
      refine ⟨current.toList ++ l,by rw [he]; rfl,?_⟩
      cases current with
      | none => exact hl
      | some cur =>
        have := hsep.head_gap (c := next) (by simp)
        exact hl.cons hsep (by unfold Span.stop at *; omega)

/-- Adding a block that no free block overlaps returns the list with that block inserted:
neither panic of `add_free_block` or `merge_blocks` fires. -/
theorem addFreeBlock_ok {free : List Block} (addr size : Nat) (hsep : Separated free)
    (hb : ∀ b ∈ free, Bounded b) (hsize : 0 < size) (hbound : addr + size < 2^64)
    (hapart : ∀ b ∈ free, b.Apart ⟨addr,size⟩) :
    ∃ free', addFreeBlock free addr size = .ok free' ∧ Inserted free ⟨addr,size⟩ free' :=
  addFreeBlockLoop_ok ⟨addr,size⟩ hbound hsize free none hsep hb (by simp) hapart

/-- The block serves the request: from its aligned start the request fits, and what is
left is nothing or can hold a node. -/
def Fits (size align : Nat) (b : Block) : Prop :=
  roundUp b.start align + size ≤ b.stop ∧
    (b.stop - (roundUp b.start align + size) = 0 ∨
      nodeSize ≤ b.stop - (roundUp b.start align + size))

instance (size align : Nat) (b : Block) : Decidable (Fits size align b) :=
  inferInstanceAs (Decidable (_ ∧ _))

/-- The check finds out whether the block fits, unless `align_up` overflows. -/
theorem checkBlockForAlloc_eq (size : Nat) {b : Block} {k : Nat} (hb : Bounded b) (hk : k ≤ 63) :
    checkBlockForAlloc b size (2^k) =
      if b.start + 2^k < 2^64 then .ok (if Fits size (2^k) b then some (roundUp b.start (2^k)) else none)
      else .error .arithmetic := by
  unfold checkBlockForAlloc
  rw [alignUp_pow _ _ hk]
  by_cases hov : b.start + 2^k < 2^64
  · simp only [if_pos hov, bind, Except.bind, Usize.checkedAdd, endAddr_ok hb]
    by_cases hle : roundUp b.start (2^k) + size ≤ b.stop
    · have hend : roundUp b.start (2^k) + size < 2^64 := hle.trans_lt hb
      simp only [if_pos hend, Nat.not_lt.mpr hle, if_false, Usize.sub_ok hle]
      by_cases hrem : 0 < b.stop - (roundUp b.start (2^k) + size) ∧
          b.stop - (roundUp b.start (2^k) + size) < nodeSize
      · rw [if_pos hrem,if_neg (show ¬ Fits size (2^k) b by unfold Fits; omega)]
        rfl
      · rw [if_neg hrem,if_pos (show Fits size (2^k) b by unfold Fits; omega)]
        rfl
    · rw [if_neg (show ¬ Fits size (2^k) b from fun h => hle h.1)]
      by_cases hend : roundUp b.start (2^k) + size < 2^64
      · simp only [if_pos hend, if_pos (Nat.lt_of_not_le hle)]
        rfl
      · simp only [if_neg hend]
        rfl
  · simp only [if_neg hov]
    rfl

/-- First fit: the search stops at an overflow, ends without a fitting block, or takes the
first block that fits out of the list. -/
theorem findFreeBlock_cases (size : Nat) {k : Nat} (hk : k ≤ 63) (free : List Block)
    (hb : ∀ b ∈ free, Bounded b) :
    findFreeBlock size (2^k) free = .error .arithmetic ∨
    (findFreeBlock size (2^k) free = .ok none ∧ ∀ b ∈ free, ¬ Fits size (2^k) b) ∨
    ∃ pre node post, free = pre ++ node :: post ∧ Fits size (2^k) node ∧
      (∀ b ∈ pre, ¬ Fits size (2^k) b) ∧
      findFreeBlock size (2^k) free = .ok (some ((node,roundUp node.start (2^k)),pre ++ post)) := by
  induction free with
  | nil => exact .inr (.inl ⟨rfl,by simp⟩)
  | cons block next ih =>
    have he := checkBlockForAlloc_eq size (hb block (by simp)) hk
    by_cases hov : block.start + 2^k < 2^64
    swap
    · rw [if_neg hov] at he
      left
      simp only [findFreeBlock, he, bind, Except.bind]
    rw [if_pos hov] at he
    by_cases hfit : Fits size (2^k) block
    · refine .inr (.inr ⟨[],block,next,rfl,hfit,by simp,?_⟩)
      simp only [findFreeBlock, he, if_pos hfit, bind, Except.bind]
      rfl
    rw [if_neg hfit] at he
    rcases ih (fun b hbm => hb b (by simp [hbm])) with hr | ⟨hr,hnone⟩ | ⟨pre,node,post,hnext,hnode,hpre,hr⟩
    · left
      simp only [findFreeBlock, he, hr, bind, Except.bind]
    · refine .inr (.inl ⟨?_,?_⟩)
      · simp only [findFreeBlock, he, hr, bind, Except.bind]
        rfl
      · intro b hbm
        rcases List.mem_cons.mp hbm with rfl | hbm
        · exact hfit
        · exact hnone b hbm
    · refine .inr (.inr ⟨block :: pre,node,post,by rw [hnext]; rfl,hnode,?_,?_⟩)
      · intro b hbm
        rcases List.mem_cons.mp hbm with rfl | hbm
        · exact hfit
        · exact hpre b hbm
      · simp only [findFreeBlock, he, hr, bind, Except.bind]
        rfl

/-- The size that `size_align` gives a layout. -/
def blockSize (layout : Layout) : Nat :=
  match sizeAlign layout with
  | .ok (size,_) => size
  | .error _ => 0

/-- What `size_align` guarantees when it does not panic, for an alignment `2^k`. -/
structure Served (layout : Layout) (k : Nat) : Prop where
  eq_ok : sizeAlign layout = .ok (blockSize layout,2^k)
  exp_le : k ≤ 63
  align_dvd : layout.align ∣ 2^k
  align_eq : 2^k = max layout.align nodeAlign
  node_dvd : nodeAlign ∣ 2^k
  size_dvd : nodeAlign ∣ blockSize layout
  node_le : nodeSize ≤ blockSize layout
  size_le : layout.size ≤ blockSize layout

private theorem exp_bounds {k j : Nat} {l layout : Layout} (hk : l.align = 2^k)
    (hj : layout.align = 2^j) (ha : l.align = max layout.align nodeAlign) : j ≤ k ∧ 3 ≤ k := by
  have h1 : 2^j ≤ 2^k := by rw [← hk,← hj,ha]; exact le_max_left _ _
  have h2 : 2^3 ≤ 2^k := by rw [← hk,ha]; exact le_max_right _ _
  exact ⟨(Nat.pow_le_pow_iff_right (by decide)).mp h1,(Nat.pow_le_pow_iff_right (by decide)).mp h2⟩

theorem sizeAlign_cases (layout : Layout) :
    sizeAlign layout = .error .adjustingAlignmentFailed ∨ ∃ k, Served layout k := by
  cases hl : layout.alignTo nodeAlign with
  | none =>
    left
    simp only [sizeAlign, hl]
    rfl
  | some l =>
    right
    obtain ⟨hs,ha⟩ := Layout.alignTo_eq_some hl
    obtain ⟨k,hk,hk63⟩ := l.align_exp
    obtain ⟨j,hj⟩ := layout.align_pow
    obtain ⟨hjk,h3k⟩ := exp_bounds hk hj ha
    have heq : sizeAlign layout = .ok (max l.padToAlign.size nodeSize,l.align) := by
      simp only [sizeAlign, hl]
      rfl
    have hsize : blockSize layout = max l.padToAlign.size nodeSize := by
      simp only [blockSize, heq]
    refine ⟨k,by rw [heq,hsize,hk],hk63,?_,hk ▸ ha,Nat.pow_dvd_pow 2 h3k,?_,
      by rw [hsize]; exact le_max_right _ _,?_⟩
    · rw [hj]
      exact Nat.pow_dvd_pow 2 hjk
    · have hpad : nodeAlign ∣ l.padToAlign.size :=
        (Nat.pow_dvd_pow 2 h3k).trans (hk ▸ roundUp_dvd l.size l.align)
      rw [hsize]
      rcases max_choice l.padToAlign.size nodeSize with h | h <;> rw [h]
      · exact hpad
      · decide
    · rw [hsize,← hs]
      exact (le_roundUp l.align_pos).trans (le_max_left _ _)

/-- The alignment gap that a successful `alloc` skips at the start of the block it takes. -/
def skippedGap (free : List Block) (layout : Layout) : Block :=
  match sizeAlign layout with
  | .error _ => ⟨0,0⟩
  | .ok (size,align) =>
    match findFreeBlock size align free with
    | .ok (some ((block,allocStart),_)) => ⟨block.start,allocStart - block.start⟩
    | _ => ⟨0,0⟩

/-- What is left of `node` behind an allocation that ends at `allocEnd`. -/
def remainder (node : Block) (allocEnd : Nat) : List Block :=
  if 0 < node.stop - allocEnd then [⟨allocEnd,node.stop - allocEnd⟩] else []

/-- A successful `alloc`: the first block that fits is replaced in place by what is left
of it behind the allocation. -/
structure Carved (free : List Block) (layout : Layout) (k ptr : Nat) (free' : List Block)
    (pre : List Block) (node : Block) (post : List Block) : Prop where
  split : free = pre ++ node :: post
  fits : Fits (blockSize layout) (2^k) node
  first : ∀ b ∈ pre, ¬ Fits (blockSize layout) (2^k) b
  ptr_eq : ptr = roundUp node.start (2^k)
  gap_eq : skippedGap free layout = ⟨node.start,ptr - node.start⟩
  result : free' = pre ++ remainder node (ptr + blockSize layout) ++ post

/-- Re-inserting the remainder puts it where the block was. -/
private theorem addFreeBlock_remainder {pre post : List Block} {node : Block} {allocEnd : Nat}
    (hsep : Separated (pre ++ node :: post)) (hb : ∀ b ∈ pre ++ node :: post, Bounded b)
    (hs : node.start ≤ allocEnd) (hrem : 0 < node.stop - allocEnd) :
    addFreeBlock (pre ++ post) allocEnd (node.stop - allocEnd) =
      .ok (pre ++ ⟨allocEnd,node.stop - allocEnd⟩ :: post) := by
  have hnode : Bounded node := hb node (by simp)
  have hsep' : Separated (pre ++ post) :=
    hsep.sublist (List.Sublist.append_left (List.sublist_cons_self _ _) _)
  have hb' : ∀ b ∈ pre ++ post, Bounded b := by
    intro b hbm
    exact hb b (by rcases List.mem_append.mp hbm with h | h <;> simp [h])
  have hapart : ∀ b ∈ pre ++ post, b.Apart ⟨allocEnd,node.stop - allocEnd⟩ := by
    intro b hbm
    have := hsep.mem_split hbm
    unfold Span.Apart Span.stop at *
    simp only
    omega
  obtain ⟨l,he,hl⟩ := addFreeBlock_ok allocEnd _ hsep' hb' hrem (by unfold Bounded at hnode; omega) hapart
  have hplace : Separated (pre ++ ⟨allocEnd,node.stop - allocEnd⟩ :: post) :=
    hsep.shrink hrem hs (by rw [Span.stop_mk]; omega)
  rw [he,hl.separated.ext hplace]
  intro x
  rw [hl.covers]
  simp only [covers_append, covers_cons]
  tauto

/-- Behind `size_align` the search decides: its overflow ends `alloc` too, and otherwise `alloc` gives the null
pointer with the list unchanged or a carved block. -/
theorem alloc_served {free : List Block} (hsep : Separated free) (hb : ∀ b ∈ free, Bounded b) {layout : Layout}
    {k : Nat} (hk : Served layout k) :
    (findFreeBlock (blockSize layout) (2^k) free = .error .arithmetic ∧ alloc free layout = .error .arithmetic) ∨
    (∃ r, findFreeBlock (blockSize layout) (2^k) free = .ok r) ∧
      ((alloc free layout = .ok (none,free) ∧ ∀ b ∈ free, ¬ Fits (blockSize layout) (2^k) b) ∨
        ∃ ptr free' pre node post, alloc free layout = .ok (some ptr,free') ∧
          Carved free layout k ptr free' pre node post) := by
  rcases findFreeBlock_cases (blockSize layout) hk.exp_le free hb with
    hf | ⟨hf,hnone⟩ | ⟨pre,node,post,hsplit,hfit,hfirst,hf⟩
  · left
    refine ⟨hf,?_⟩
    simp only [alloc, hk.eq_ok, hf, bind, Except.bind]
  · refine .inr ⟨⟨_,hf⟩,.inl ⟨?_,hnone⟩⟩
    simp only [alloc, hk.eq_ok, hf, bind, Except.bind]
    rfl
  refine .inr ⟨⟨_,hf⟩,.inr ⟨roundUp node.start (2^k),_,pre,node,post,?_,hsplit,hfit,hfirst,rfl,?_,rfl⟩⟩
  · have hnode : Bounded node := hb node (by simp [hsplit])
    have hend := hfit.1
    have hlt : roundUp node.start (2^k) + blockSize layout < 2^64 := hend.trans_lt hnode
    have hstart : node.start ≤ roundUp node.start (2^k) := le_roundUp (Nat.two_pow_pos k)
    simp only [alloc, hk.eq_ok, hf, bind, Except.bind, Usize.checkedAdd, if_pos hlt, endAddr_ok hnode,
      Usize.sub_ok hend, remainder]
    split
    · rename_i hrem
      rw [addFreeBlock_remainder (hsplit ▸ hsep) (hsplit ▸ hb) (by omega) hrem,List.append_assoc]
      rfl
    · rw [List.append_nil]
      rfl
  · simp only [skippedGap, hk.eq_ok, hf]

/-- Every outcome of `alloc` on a separated list: a panic of `size_align` or of the overflow
check, the null pointer with the list unchanged, or a carved block. -/
theorem alloc_cases {free : List Block} (hsep : Separated free) (hb : ∀ b ∈ free, Bounded b)
    (layout : Layout) :
    alloc free layout = .error .adjustingAlignmentFailed ∨ alloc free layout = .error .arithmetic ∨
    ∃ k, Served layout k ∧
      ((alloc free layout = .ok (none,free) ∧ ∀ b ∈ free, ¬ Fits (blockSize layout) (2^k) b) ∨
        ∃ ptr free' pre node post, alloc free layout = .ok (some ptr,free') ∧
          Carved free layout k ptr free' pre node post) := by
  rcases sizeAlign_cases layout with he | ⟨k,hk⟩
  · left
    simp only [alloc, he, bind, Except.bind]
  right
  rcases alloc_served hsep hb hk with ⟨-,ha⟩ | ⟨-,ha⟩
  · exact .inl ha
  · exact .inr ⟨k,hk,ha⟩

namespace Carved
variable {free free' pre post : List Block} {layout : Layout} {k ptr : Nat} {node : Block}
  (h : Carved free layout k ptr free' pre node post)
include h

theorem start_le : node.start ≤ ptr := h.ptr_eq ▸ le_roundUp (Nat.two_pow_pos k)

theorem end_le : ptr + blockSize layout ≤ node.stop := h.ptr_eq ▸ h.fits.1

theorem aligned : 2^k ∣ ptr := h.ptr_eq ▸ roundUp_dvd _ _

theorem node_mem : node ∈ free := by simp [h.split]

theorem remainder_size : ∀ b ∈ remainder node (ptr + blockSize layout), nodeSize ≤ b.size := by
  have hf := h.fits.2
  rw [← h.ptr_eq] at hf
  unfold remainder
  split
  · simp only [List.mem_singleton, forall_eq]
    omega
  · simp

theorem separated (hsep : Separated free) : Separated free' := by
  have hle := h.end_le
  rw [h.split] at hsep
  rw [h.result]
  unfold remainder
  split
  · rename_i hrem
    rw [List.append_assoc]
    exact hsep.shrink hrem (by have := h.start_le; simp only; omega) (by rw [Span.stop_mk]; omega)
  · rw [List.append_nil]
    exact hsep.sublist (List.Sublist.append_left (List.sublist_cons_self _ _) _)

private theorem covers_remainder (x : Nat) :
    Covers (remainder node (ptr + blockSize layout)) x ↔ ptr + blockSize layout ≤ x ∧ x < node.stop := by
  have hle := h.end_le
  unfold remainder
  split
  · simp only [covers_cons, covers_nil, or_false, Span.Has, Span.stop_mk]
    omega
  · simp only [covers_nil, false_iff]
    omega

/-- The free bytes lose those from the start of the block to the end of the allocation. -/
theorem covers_iff (hsep : Separated free) (x : Nat) :
    Covers free' x ↔ Covers free x ∧ ¬ (node.start ≤ x ∧ x < ptr + blockSize layout) := by
  have hs := h.start_le
  have hle := h.end_le
  have hout : Covers (pre ++ post) x → ¬ (node.start ≤ x ∧ x < node.stop) := by
    rintro ⟨b,hbm,hx⟩
    have := (h.split ▸ hsep).mem_split hbm
    simp only [Span.Has] at hx
    omega
  rw [covers_append] at hout
  rw [h.result,h.split]
  simp only [covers_append, covers_cons, h.covers_remainder, Span.Has]
  constructor
  · rintro ((hx | hx) | hx)
    · exact ⟨.inl hx,fun hn => hout (.inl hx) ⟨hn.1,by omega⟩⟩
    · exact ⟨.inr (.inl ⟨by omega,hx.2⟩),by omega⟩
    · exact ⟨.inr (.inr hx),fun hn => hout (.inr hx) ⟨hn.1,by omega⟩⟩
  · rintro ⟨hx | hx | hx,hn⟩
    · exact .inl (.inl hx)
    · exact .inl (.inr ⟨by omega,hx.2⟩)
    · exact .inr hx

theorem total_eq : total free' + (ptr - node.start) + blockSize layout = total free := by
  have hs := h.start_le
  have hle := h.end_le
  have hrem : total (remainder node (ptr + blockSize layout)) = node.stop - (ptr + blockSize layout) := by
    unfold remainder
    split
    · simp
    · simp only [total_nil]
      omega
  rw [h.result,h.split]
  simp only [total_append, total_cons, hrem]
  unfold Span.stop at *
  omega

end Carved

end HeineOS.LinkedList
