import HeineOS.Allocator.FreeList

/-! Which blocks `add_free_block` refuses. The overlap test looks at the first byte of the new block only, so that
a block which starts in front of a free block and reaches into it goes through. -/
namespace HeineOS.LinkedList
open Lib

private theorem linkBlock_total {current : Option Block} {node : Block} (next : List Block) (hnode : Bounded node)
    (hcur : ∀ c ∈ current, Bounded c) : ∃ l, linkBlock current node next = .ok l := by
  cases current with
  | none => exact ⟨node :: next,rfl⟩
  | some cur =>
    simp only [linkBlock, endAddr_ok (hcur cur rfl), bind, Except.bind]
    split
    · rename_i hadj
      rw [mergeBlocks_ok hadj.2 hnode]
      exact ⟨_,rfl⟩
    · exact ⟨_,rfl⟩

/-- Without a free block around its first byte, the block is put somewhere. -/
private theorem addFreeBlockLoop_total {node : Block} (hnode : Bounded node) (rest : List Block)
    (current : Option Block) (hcur : ∀ c ∈ current, Bounded c) (hb : ∀ b ∈ rest, Bounded b)
    (hout : ¬ Covers rest node.start) : ∃ l, addFreeBlockLoop node current rest = .ok l := by
  induction rest generalizing current with
  | nil => exact linkBlock_total [] hnode hcur
  | cons next rest ih =>
    have hn := hb next List.mem_cons_self
    rw [covers_cons,not_or] at hout
    have hover : checkOverlap node next = .ok () := checkOverlap_ok node hn hout.1
    simp only [addFreeBlockLoop, hover, endAddr_ok hnode, bind, Except.bind]
    split
    · exact linkBlock_total _ hnode hcur
    · split
      · rename_i hadj
        rw [mergeBlocks_ok hadj hn]
        apply linkBlock_total rest ?_ hcur
        rw [Bounded,Span.join_stop hadj]
        exact hn
      · have hnext : ∀ c ∈ some next, Bounded c := by
          intro c hc
          rw [← Option.some.inj hc]
          exact hn
        obtain ⟨l,hl⟩ := ih (some next) hnext (fun b hm => hb b (List.mem_cons_of_mem _ hm)) hout.2
        rw [hl]
        exact ⟨_,rfl⟩

private theorem checkOverlap_error {node next : Block} (hn : Bounded next) (h : next.Has node.start) :
    checkOverlap node next = .error (.doubleFree node.start) := by
  obtain ⟨hle,hlt⟩ := h
  simp only [checkOverlap, ge_iff_le, hle, if_true, endAddr_ok hn, bind, Except.bind, hlt]
  rfl

/-- The free block around the first byte is found, whatever comes before it. -/
private theorem addFreeBlockLoop_error {node : Block} (hnode : Bounded node) (rest : List Block)
    (current : Option Block) (hsep : Separated rest) (hb : ∀ b ∈ rest, Bounded b) (hin : Covers rest node.start) :
    addFreeBlockLoop node current rest = .error (.doubleFree node.start) := by
  induction rest generalizing current with
  | nil => exact absurd hin (covers_nil _)
  | cons next rest ih =>
    have hn := hb next List.mem_cons_self
    by_cases hhead : next.Has node.start
    · simp only [addFreeBlockLoop, checkOverlap_error hn hhead, bind, Except.bind]
    · have hrest : Covers rest node.start := ((covers_cons _ _ _).mp hin).resolve_left hhead
      have hafter : next.start < node.start := by
        obtain ⟨b,hbm,hx⟩ := hrest
        have hgap := hsep.head_gap hbm
        simp only [Span.Has, Span.stop] at hgap hx
        omega
      have hfar : ¬ node.stop < next.start ∧ ¬ node.stop = next.start := by
        simp only [Span.stop]
        omega
      simp only [addFreeBlockLoop, checkOverlap_ok node hn hhead, endAddr_ok hnode, bind, Except.bind, if_neg hfar.1,
        if_neg hfar.2, ih (some next) hsep.tail (fun b hm => hb b (List.mem_cons_of_mem _ hm)) hrest]

/-- The block shares a byte with a free block. -/
def Overlaps (free : List Block) (block : Block) : Prop := ∃ x, Covers free x ∧ block.Has x

/-- Blocks that overlap are refused, and every other block is added. -/
structure Detects (free : List Block) (addr size : Nat) : Prop where
  panics : (∃ e, addFreeBlock free addr size = .error e) ↔ Overlaps free ⟨addr,size⟩
  adds : ∀ free', addFreeBlock free addr size = .ok free' →
    Separated free' ∧ ∀ x, Covers free' x ↔ Covers free x ∨ Span.Has ⟨addr,size⟩ x

section
variable {free : List Block} {addr size : Nat}

private theorem apart_of_not_overlaps (hsep : Separated free) (hsize : 0 < size)
    (h : ¬ Overlaps free ⟨addr,size⟩) : ∀ b ∈ free, b.Apart ⟨addr,size⟩ := by
  intro b hb
  rw [Span.apart_iff (hsep.pos b hb) hsize]
  intro x hx
  exact h ⟨x,⟨b,hb,hx.1⟩,hx.2⟩

/-- Misuse is detected exactly if a block that overlaps starts with a free byte. -/
theorem misuse_detected_iff (hsep : Separated free) (hb : ∀ b ∈ free, Bounded b) (hsize : 16 ≤ size)
    (hbound : addr + size < 2^64) :
    Detects free addr size ↔ (Overlaps free ⟨addr,size⟩ → Covers free addr) := by
  have hpos : 0 < size := by omega
  have hnode : Bounded ⟨addr,size⟩ := hbound
  constructor
  · intro h hover
    by_contra hout
    obtain ⟨e,he⟩ := h.panics.mpr hover
    obtain ⟨l,hl⟩ := addFreeBlockLoop_total hnode free none (fun _ hc => nomatch hc) hb hout
    rw [addFreeBlock,hl] at he
    cases he
  · intro h
    by_cases hover : Overlaps free ⟨addr,size⟩
    · have herr : addFreeBlock free addr size = .error (.doubleFree addr) :=
        addFreeBlockLoop_error hnode free none hsep hb (h hover)
      refine ⟨⟨fun _ => hover,fun _ => ⟨_,herr⟩⟩,?_⟩
      intro free' hok
      rw [herr] at hok
      cases hok
    · obtain ⟨l,hl,hins⟩ := addFreeBlock_ok addr size hsep hb hpos hbound (apart_of_not_overlaps hsep hpos hover)
      refine ⟨⟨?_,fun hov => absurd hov hover⟩,?_⟩
      · intro herr
        obtain ⟨e,he⟩ := herr
        rw [hl] at he
        cases he
      · intro free' hok
        rw [hl] at hok
        cases hok
        exact ⟨hins.separated,hins.covers⟩

end

private theorem separated_sample : Separated [⟨1024,64⟩] := Separated.cons_iff.mpr ⟨by decide,by simp,.nil⟩

theorem misuse_detected_iff_sample : Overlaps [⟨1024,64⟩] ⟨1040,32⟩ ∧ Detects [⟨1024,64⟩] 1040 32 := by
  have hfirst : Covers [⟨1024,64⟩] 1040 := ⟨_,List.mem_cons_self,by decide⟩
  refine ⟨⟨1040,hfirst,by decide⟩,?_⟩
  exact (misuse_detected_iff separated_sample (by simp [Bounded]) (by decide) (by decide)).mpr fun _ => hfirst

/-- A block from 1008 to 1040 overlaps the free block from 1024 on, and is added. -/
theorem misuse_undetected :
    Separated [⟨1024,64⟩] ∧ Overlaps [⟨1024,64⟩] ⟨1008,32⟩ ∧
      addFreeBlock [⟨1024,64⟩] 1008 32 = .ok [⟨1024,64⟩,⟨1008,32⟩] ∧ ¬ Detects [⟨1024,64⟩] 1008 32 := by
  have hover : Overlaps [⟨1024,64⟩] ⟨1008,32⟩ := ⟨1024,⟨_,List.mem_cons_self,by decide⟩,by decide⟩
  have hok : addFreeBlock [⟨1024,64⟩] 1008 32 = .ok [⟨1024,64⟩,⟨1008,32⟩] := rfl
  refine ⟨separated_sample,hover,hok,?_⟩
  intro h
  obtain ⟨e,he⟩ := h.panics.mpr hover
  rw [hok] at he
  cases he

end HeineOS.LinkedList
