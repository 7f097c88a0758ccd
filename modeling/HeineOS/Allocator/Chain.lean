import HeineOS.Allocator.FreeList
import HeineOS.Allocator.Memory

/-! The stored list represents the list of free blocks, and the operations on memory do to it
what the operations on lists do. They write only inside free blocks and the block they add. -/
namespace HeineOS.LinkedList.Memory
open Lib

section Fields
variable (m : Memory) {a b v : Nat}

/-- Headers that do not overlap. -/
def Sep (a b : Nat) : Prop := a + 16 ≤ b ∨ b + 16 ≤ a

theorem next_lt (a : Nat) : m.next (.node a) < 2^64 := m.bytes.load_lt (a + 8) 8

theorem size_setSize (h : v < 2^64) : (m.setSize a v).size a = v := Bytes.load_store_of_lt _ h

theorem size_setNext_self : (m.setNext (.node a) v).size a = m.size a :=
  Bytes.load_store_apart _ _ (by omega)

theorem size_setNext_sep (h : Sep a b) : (m.setNext (.node b) v).size a = m.size a :=
  Bytes.load_store_apart _ _ (by unfold Sep at h; omega)

theorem size_setNext_head : (m.setNext .head v).size a = m.size a := rfl

theorem next_setSize_sep (h : Sep a b) : (m.setSize b v).next (.node a) = m.next (.node a) :=
  Bytes.load_store_apart _ _ (by unfold Sep at h; omega)

theorem next_setNext (h : v < 2^64) : (m.setNext (.node a) v).next (.node a) = v :=
  Bytes.load_store_of_lt _ h

theorem next_setNext_sep (h : Sep a b) : (m.setNext (.node b) v).next (.node a) = m.next (.node a) :=
  Bytes.load_store_apart _ _ (by unfold Sep at h; omega)

end Fields

/-- Memory changes at most inside the given blocks. -/
def Frame (l : List Block) (m m' : Memory) : Prop := ∀ x, ¬ Covers l x → m'.bytes x = m.bytes x

theorem Frame.refl (l : List Block) (m : Memory) : Frame l m m := fun _ _ => rfl

theorem Frame.trans {l : List Block} {m m' m'' : Memory} (h : Frame l m m') (h' : Frame l m' m'') :
    Frame l m m'' := fun x hx => (h' x hx).trans (h x hx)

theorem Frame.mono {l l' : List Block} {m m' : Memory} (h : Frame l m m')
    (hsub : ∀ x, Covers l x → Covers l' x) : Frame l' m m' :=
  fun x hx => h x fun hc => hx (hsub x hc)

theorem frame_setSize {l : List Block} {b : Block} (hb : b ∈ l) (hs : nodeSize ≤ b.size) (m : Memory)
    (v : Nat) : Frame l m (m.setSize b.start v) := by
  intro x hx
  refine Bytes.store_of_not_mem _ v ?_
  rintro ⟨h1,h2⟩
  exact hx ⟨b,hb,h1,by unfold Span.stop nodeSize at *; omega⟩

theorem frame_setNext {l : List Block} {b : Block} (hb : b ∈ l) (hs : nodeSize ≤ b.size) (m : Memory)
    (v : Nat) : Frame l m (m.setNext (.node b.start) v) := by
  intro x hx
  refine Bytes.store_of_not_mem _ v ?_
  rintro ⟨h1,h2⟩
  exact hx ⟨b,hb,by omega,by unfold Span.stop nodeSize at *; omega⟩

theorem node_congr {m m' : Memory} {b : Block} (hs : nodeSize ≤ b.size)
    (h : ∀ x, b.Has x → m'.bytes x = m.bytes x) :
    m'.size b.start = m.size b.start ∧ m'.next (.node b.start) = m.next (.node b.start) := by
  have hx : ∀ x, b.start ≤ x → x < b.start + 16 → m'.bytes x = m.bytes x := by
    intro x h1 h2
    exact h x ⟨h1,by unfold Span.stop nodeSize at *; omega⟩
  exact ⟨Bytes.load_congr fun x h1 h2 => hx x (by omega) (by omega),
    Bytes.load_congr fun x h1 h2 => hx x (by omega) (by omega)⟩

/-- A header outside the changed blocks reads as before. -/
theorem Frame.node {l : List Block} {m m' : Memory} (h : Frame l m m') {b : Block}
    (hs : nodeSize ≤ b.size) (hout : ∀ x, b.Has x → ¬ Covers l x) :
    m'.size b.start = m.size b.start ∧ m'.next (.node b.start) = m.next (.node b.start) :=
  node_congr hs fun x hx => h x (hout x hx)

/-- The pointer `p` leads through the stored headers along the blocks of the list. -/
def Chain (m : Memory) : Nat → List Block → Prop
  | p, [] => p = 0
  | p, b :: l => p = b.start ∧ p ≠ 0 ∧ m.size p = b.size ∧ Chain m (m.next (.node p)) l

theorem Chain.congr {m m' : Memory} {p : Nat} {l : List Block} (h : Chain m p l)
    (hsame : ∀ b ∈ l, m'.size b.start = m.size b.start ∧
      m'.next (.node b.start) = m.next (.node b.start)) : Chain m' p l := by
  induction l generalizing p with
  | nil => exact h
  | cons b l ih =>
    obtain ⟨rfl,h0,hs,hc⟩ := h
    have hb := hsame b (by simp)
    refine ⟨rfl,h0,hb.1.trans hs,?_⟩
    rw [hb.2]
    exact ih hc (fun c hc => hsame c (by simp [hc]))

/-- Following the pointers yields the represented list. -/
theorem Chain.follow {m : Memory} {p : Nat} {l : List Block} (h : Chain m p l) {fuel : Nat}
    (hf : l.length < fuel) : m.follow fuel p = some l := by
  induction l generalizing p fuel with
  | nil =>
    obtain ⟨fuel,rfl⟩ : ∃ n, fuel = n + 1 := ⟨fuel - 1,by simp at hf; omega⟩
    have h0 : p = 0 := h
    simp only [Memory.follow, h0, if_true]
  | cons b l ih =>
    obtain ⟨rfl,h0,hs,hc⟩ := h
    rw [List.length_cons] at hf
    obtain ⟨fuel,rfl⟩ : ∃ n, fuel = n + 1 := ⟨fuel - 1,by omega⟩
    simp only [Memory.follow, if_neg h0, ih hc (show l.length < fuel by omega), Option.map_some, block, hs]

theorem block_eq {m : Memory} {b : Block} (h : m.size b.start = b.size) : m.block b.start = b := by
  rw [block,h]

theorem mergeBlocks_ok {m : Memory} {a b : Block} (hadj : a.stop = b.start) (hb : Bounded b)
    (hsa : nodeSize ≤ a.size) (hsb : nodeSize ≤ b.size) (ha : m.size a.start = a.size)
    (hb' : m.size b.start = b.size) :
    ∃ m', m.mergeBlocks a.start b.start = .ok m' ∧ m'.size a.start = (a.join b).size ∧
      m'.next (.node a.start) = m.next (.node b.start) ∧ Frame [a,b] m m' ∧ m'.head = m.head := by
  have hsep : Sep a.start b.start := by unfold Sep Span.stop nodeSize at *; omega
  have hlt : (a.join b).size < 2^64 := by rw [Span.join_size]; unfold Bounded Span.stop at *; omega
  have hrest : (m.setSize a.start (a.join b).size).next (.node b.start) < 2^64 := next_lt _ _
  refine ⟨((m.setSize a.start (a.join b).size).setNext (.node b.start) 0).setNext (.node a.start)
    ((m.setSize a.start (a.join b).size).next (.node b.start)),?_,?_,?_,?_,rfl⟩
  · rw [mergeBlocks,block_eq ha,block_eq hb',LinkedList.mergeBlocks_ok hadj hb]
    rfl
  · rw [size_setNext_self,size_setNext_sep _ hsep,size_setSize _ hlt]
  · rw [next_setNext _ hrest,next_setSize_sep _ (Or.symm hsep)]
  · exact ((frame_setSize (by simp) hsa m _).trans (frame_setNext (b := b) (by simp) hsb _ _)).trans
      (frame_setNext (b := a) (by simp) hsa _ _)

/-- The cursor at a block, or at the head. -/
def cursor : Option Block → Cursor
  | none => .head
  | some b => .node b.start

/-- The pointer to the node under the cursor; for the head, the first pointer. -/
def entry (m : Memory) : Option Block → Nat
  | none => m.head
  | some b => b.start

/-- The header under the cursor reads as the block. -/
def Header (m : Memory) (b : Block) : Prop := b.start ≠ 0 ∧ m.size b.start = b.size

theorem linkBlock_refines {m : Memory} {current : Option Block} {node : Block} {next : List Block}
    (hsep : Separated (current.toList ++ next)) (hsize : ∀ b ∈ current.toList ++ next, nodeSize ≤ b.size)
    (hnode : Bounded node) (hns : nodeSize ≤ node.size)
    (hcur : ∀ c ∈ current, c.stop ≤ node.start) (hnext : ∀ b ∈ next, node.stop < b.start)
    (hhead : ∀ c ∈ current, m.Header c) (hheadn : m.Header node)
    (hchain : m.Chain (m.next (.node node.start)) next) :
    ∃ m' l, m.linkBlock (cursor current) node.start = .ok m' ∧
      LinkedList.linkBlock current node next = .ok l ∧ m'.Chain (m'.entry current) l ∧
      Frame (current.toList ++ [node]) m m' ∧ (current ≠ none → m'.head = m.head) := by
  cases current with
  | none =>
    refine ⟨m.setNext .head node.start,node :: next,rfl,rfl,⟨rfl,hheadn.1,hheadn.2,?_⟩,
      fun _ _ => rfl,fun h => absurd rfl h⟩
    exact Chain.congr (m := m) hchain fun _ _ => ⟨rfl,rfl⟩
  | some cur =>
    have hle := hcur cur rfl
    obtain ⟨hc0,hcs⟩ := hhead cur rfl
    have hcsize : nodeSize ≤ cur.size := hsize cur (by simp)
    have hc : Bounded cur := by unfold Bounded Span.stop at *; omega
    have hcpos : 0 < cur.size := hsep.head
    have hsep16 : Sep node.start cur.start := by unfold Sep Span.stop nodeSize at *; omega
    have hout : ∀ b ∈ next, ∀ x, b.Has x → ¬ Covers [cur,node] x := by
      intro b hb x hx
      have h1 := hnext b hb
      have h2 : cur.stop < b.start := hsep.head_gap hb
      simp only [covers_cons, covers_nil, or_false, Span.Has] at hx ⊢
      omega
    have hns' : ∀ b ∈ next, nodeSize ≤ b.size := fun b hb => hsize b (by simp [hb])
    simp only [cursor, Memory.linkBlock, LinkedList.linkBlock, block_eq hcs, endAddr_ok hc, bind,
      Except.bind, hcs, hcpos, true_and]
    by_cases hadj : cur.stop = node.start
    · obtain ⟨m',he,hs',hn',hf,hh⟩ := mergeBlocks_ok hadj hnode hcsize hns hcs hheadn.2
      refine ⟨m',cur.join node :: next,by rw [if_pos hadj,he],?_,⟨rfl,hc0,hs',?_⟩,hf,fun _ => hh⟩
      · rw [if_pos hadj,LinkedList.mergeBlocks_ok hadj hnode]
        rfl
      · rw [entry,hn']
        exact hchain.congr fun b hb => hf.node (hns' b hb) (hout b hb)
    · have hf : Frame [cur,node] m (m.setNext (.node cur.start) node.start) :=
        frame_setNext (by simp) hcsize m _
      have hlt : node.start < 2^64 := by unfold Bounded Span.stop at hnode; omega
      refine ⟨m.setNext (.node cur.start) node.start,cur :: node :: next,by rw [if_neg hadj]; rfl,
        by rw [if_neg hadj]; rfl,⟨rfl,hc0,?_,?_⟩,hf,fun _ => rfl⟩
      · rw [entry,size_setNext_self,hcs]
      · rw [entry,next_setNext _ hlt]
        refine ⟨rfl,hheadn.1,by rw [size_setNext_sep _ hsep16,hheadn.2],?_⟩
        rw [next_setNext_sep _ hsep16]
        exact hchain.congr fun b hb => hf.node (hns' b hb) (hout b hb)

private theorem frame_unlink {current : Option Block} {node : Block} (m : Memory) (v : Nat)
    (hsize : ∀ b ∈ current.toList, nodeSize ≤ b.size) :
    Frame (current.toList ++ [node]) m (m.setNext (cursor current) v) := by
  cases current with
  | none => exact fun _ _ => rfl
  | some cur => exact frame_setNext (b := cur) (by simp) (hsize cur (by simp)) m v

/-- What the loop of `add_free_block` finds: it stands at `current`, the stored list behind it
is `rest`, and the new node has its header and lies behind `current`. -/
structure Walk (m : Memory) (node : Block) (current : Option Block) (rest : List Block) : Prop where
  separated : Separated (current.toList ++ rest)
  size : ∀ b ∈ current.toList ++ rest, nodeSize ≤ b.size
  bounded : ∀ b ∈ rest, Bounded b
  apart : ∀ b ∈ rest, b.Apart node
  before : ∀ c ∈ current, c.stop ≤ node.start
  header : ∀ c ∈ current, m.Header c
  chain : m.Chain (m.next (cursor current)) rest
  node_header : m.Header node
  node_next : m.next (.node node.start) = 0

namespace Walk
variable {m : Memory} {node : Block} {current : Option Block} {rest : List Block}

theorem cur_apart (h : Walk m node current rest) {c : Block} (hc : c ∈ current) {x : Nat}
    (hx : c.Has x) : ¬ Covers (rest ++ [node]) x := by
  cases hc
  have hb := h.before c rfl
  rintro ⟨b,hm,hbx⟩
  rcases List.mem_append.mp hm with hm | hm
  · have := h.separated.head_gap hm
    simp only [Span.Has] at hx hbx
    omega
  · rw [List.mem_singleton.mp hm] at hbx
    simp only [Span.Has] at hx hbx
    omega

theorem advance {next : Block} (h : Walk m node current (next :: rest)) (hafter : next.stop ≤ node.start) :
    Walk m node (some next) rest := by
  have hsub : (next :: rest).Sublist (current.toList ++ next :: rest) := List.sublist_append_right _ _
  obtain ⟨hn,h0,hs,hc⟩ := h.chain
  refine ⟨h.separated.sublist hsub,fun b hb => h.size b (hsub.subset hb),
    fun b hb => h.bounded b (by simp [hb]),fun b hb => h.apart b (by simp [hb]),?_,?_,?_,
    h.node_header,h.node_next⟩
  · intro c hcm
    cases hcm
    exact hafter
  · intro c hcm
    cases hcm
    rw [hn] at h0 hs
    exact ⟨h0,hs⟩
  · rw [hn] at hc
    exact hc

/-- Before `link_block` runs, the node takes over the link of `current`. -/
private theorem unlink {next : Block} (h : Walk m node current (next :: rest)) (hns : nodeSize ≤ node.size)
    (hgap : ∀ b ∈ next :: rest, node.stop < b.start) {m₁ : Memory}
    (hm₁ : m₁ = (m.setNext (cursor current) 0).setNext (.node node.start) next.start) :
    Frame (current.toList ++ [node]) m m₁ ∧ (∀ c ∈ current, m₁.Header c) ∧ m₁.Header node ∧
      m₁.Chain (m₁.next (.node node.start)) (next :: rest) ∧ (current ≠ none → m₁.head = m.head) := by
  have hcsize : ∀ b ∈ current.toList, nodeSize ≤ b.size := fun b hb => h.size b (by simp [hb])
  have hfr : Frame (current.toList ++ [node]) m m₁ := by
    rw [hm₁]
    exact (frame_unlink m 0 hcsize).trans (frame_setNext (by simp) hns _ _)
  have hnext : m₁.next (.node node.start) = next.start := by
    rw [hm₁,next_setNext]
    have := h.bounded next (by simp)
    unfold Bounded Span.stop at this
    omega
  have hout : ∀ b ∈ next :: rest, ∀ x, b.Has x → ¬ Covers (current.toList ++ [node]) x := by
    intro b hb x hx hc
    have h1 := hgap b hb
    rw [covers_append] at hc
    rcases hc with ⟨c,hc,hcx⟩ | hc
    · have h2 := h.before c (by simpa using hc)
      simp only [Span.Has, Span.stop] at *
      omega
    · simp only [covers_cons, covers_nil, or_false, Span.Has] at hc hx
      omega
  have hchain : m₁.Chain next.start (next :: rest) := by
    have hn := h.chain.1
    refine Chain.congr (hn ▸ h.chain) fun b hb => hfr.node (h.size b ?_) (hout b hb)
    exact List.mem_append_right _ hb
  refine ⟨hfr,?_,?_,hnext.symm ▸ hchain,?_⟩
  · intro c hc
    cases hc
    have hsep : Sep c.start node.start := by
      have h1 := h.before c rfl
      have h2 := hcsize c (by simp)
      unfold Sep Span.stop nodeSize at *
      omega
    obtain ⟨hc0,hcs⟩ := h.header c rfl
    refine ⟨hc0,?_⟩
    rw [hm₁,size_setNext_sep _ hsep,cursor,size_setNext_self,hcs]
  · refine ⟨h.node_header.1,?_⟩
    rw [hm₁,size_setNext_self]
    cases current with
    | none => exact h.node_header.2
    | some cur =>
      have hsep : Sep node.start cur.start := by
        have h1 := h.before cur rfl
        have h2 := hcsize cur (by simp)
        unfold Sep Span.stop nodeSize at *
        omega
      rw [cursor,size_setNext_sep _ hsep,h.node_header.2]
  · intro hne
    cases current with
    | none => exact absurd rfl hne
    | some cur => rw [hm₁]; rfl

/-- When the node swallows the block behind it, the header under the cursor and the list
behind that block stay. -/
private theorem absorb {next : Block} (h : Walk m node current (next :: rest)) (hadj : node.stop = next.start)
    {m₁ : Memory} (hfr : Frame [node,next] m m₁)
    (hn₁ : m₁.next (.node node.start) = m.next (.node next.start)) :
    (∀ c ∈ current, m₁.Header c) ∧ m₁.Chain (m₁.next (.node node.start)) rest := by
  obtain ⟨hn,_,_,hchain⟩ := h.chain
  rw [hn] at hchain
  constructor
  · intro c hc
    obtain ⟨hc0,hcs⟩ := h.header c hc
    have hcur := hfr.node (h.size c (by simpa using .inl hc)) fun x hx hx' => h.cur_apart hc hx (by
      simp only [covers_append, covers_cons, covers_nil, or_false] at hx' ⊢
      exact hx'.elim .inr fun hb => .inl (.inl hb))
    exact ⟨hc0,hcur.1.trans hcs⟩
  · rw [hn₁]
    refine hchain.congr fun b hb => hfr.node (h.size b (by simp [hb])) ?_
    intro x hx hx'
    have hnr : Separated (next :: rest) := h.separated.sublist (List.sublist_append_right _ _)
    have h1 := hnr.head_gap hb
    simp only [covers_cons, covers_nil, or_false, ← Span.join_has hadj] at hx'
    rw [Span.Has,Span.join_stop hadj] at hx'
    simp only [Span.Has] at hx
    omega

end Walk

private theorem forall_fuel {n : Nat} {P : Nat → Prop} :
    (∀ fuel, n < fuel → P fuel) ↔ ∀ fuel, n < fuel + 1 → P (fuel + 1) := by
  constructor
  · exact fun h fuel => h (fuel + 1)
  · intro h fuel hf
    obtain ⟨fuel,rfl⟩ : ∃ k, fuel = k + 1 := ⟨fuel - 1,by omega⟩
    exact h fuel hf

theorem addFreeBlockLoop_refines {node : Block} (hnode : Bounded node) (hns : nodeSize ≤ node.size)
    (rest : List Block) {m : Memory} {current : Option Block} (h : Walk m node current rest) :
    ∃ m' l, (∀ fuel, rest.length < fuel →
        Memory.addFreeBlockLoop node.start fuel (cursor current) m = .ok (some m')) ∧
      LinkedList.addFreeBlockLoop node current rest = .ok l ∧ m'.Chain (m'.entry current) l ∧
      Frame (current.toList ++ (rest ++ [node])) m m' ∧ (current ≠ none → m'.head = m.head) := by
  induction rest generalizing m current with
  | nil =>
    have hend : m.next (cursor current) = 0 := h.chain
    obtain ⟨m',l,he,hl,hc,hfr,hh⟩ := linkBlock_refines h.separated h.size hnode hns h.before (by simp)
      h.header h.node_header (show m.Chain _ [] from h.node_next)
    refine ⟨m',l,forall_fuel.mpr fun fuel _ => ?_,hl,hc,hfr,hh⟩
    simp only [Memory.addFreeBlockLoop, if_pos hend, he]
    rfl
  | cons next rest ih =>
    obtain ⟨hn,h0,hs,hchain⟩ := h.chain
    rw [hn] at h0 hs hchain
    have hnb := h.bounded next (by simp)
    have hnr : Separated (next :: rest) := h.separated.sublist (List.sublist_append_right _ _)
    have hnpos := hnr.head
    have hnsize : nodeSize ≤ next.size := h.size next (by simp)
    have hcase : next.stop ≤ node.start ∨ node.stop ≤ next.start := h.apart next (by simp)
    have hpos : 0 < node.size := (by decide : 0 < nodeSize).trans_le hns
    have hover := checkOverlap_ok node hnb (by unfold Span.stop at *; omega)
    have hcsize : ∀ b ∈ current.toList, nodeSize ≤ b.size := fun b hb => h.size b (by simp [hb])
    have hmem : ∀ fuel, Memory.addFreeBlockLoop node.start (fuel + 1) (cursor current) m =
        if node.stop < next.start then do
          let m := (m.setNext (cursor current) 0).setNext (.node node.start) next.start
          return some (← m.linkBlock (cursor current) node.start)
        else if node.stop = next.start then do
          let m ← m.mergeBlocks node.start next.start
          return some (← m.linkBlock (cursor current) node.start)
        else Memory.addFreeBlockLoop node.start fuel (.node next.start) m := by
      intro fuel
      simp only [Memory.addFreeBlockLoop, hn, if_neg h0, block_eq h.node_header.2, block_eq hs, hover,
        endAddr_ok hnode, bind, Except.bind]
    simp only [forall_fuel (n := rest.length + 1), List.length_cons, Nat.add_lt_add_iff_right, hmem,
      LinkedList.addFreeBlockLoop, hover, endAddr_ok hnode, bind, Except.bind]
    by_cases hlt : node.stop < next.start
    · simp only [if_pos hlt]
      have hgap : ∀ b ∈ next :: rest, node.stop < b.start := by
        intro b hb
        rcases List.mem_cons.mp hb with rfl | hb
        · exact hlt
        · have := hnr.head_gap hb
          unfold Span.stop at *
          omega
      obtain ⟨hfr₁,hcur₁,hnode₁,hchain₁,hh₁⟩ := h.unlink hns hgap rfl
      obtain ⟨m',l,he,hl,hc,hfr,hh⟩ := linkBlock_refines h.separated h.size hnode hns h.before hgap
        hcur₁ hnode₁ hchain₁
      refine ⟨m',l,fun _ _ => by rw [he]; rfl,hl,hc,?_,fun hne => (hh hne).trans (hh₁ hne)⟩
      · exact (hfr₁.trans hfr).mono fun x hx => by
          rw [covers_append] at hx
          rw [covers_append,covers_append]
          exact hx.imp id .inr
    simp only [if_neg hlt]
    by_cases hadj : node.stop = next.start
    · simp only [if_pos hadj]
      have hjoin : Bounded (node.join next) := by rw [Bounded,Span.join_stop hadj]; exact hnb
      have hsub : (current.toList ++ rest).Sublist (current.toList ++ next :: rest) :=
        List.Sublist.append_left (List.sublist_cons_self _ _) _
      have hgap : ∀ b ∈ rest, (node.join next).stop < b.start := by
        intro b hb
        rw [Span.join_stop hadj]
        exact hnr.head_gap hb
      obtain ⟨m₁,he₁,hs₁,hn₁,hfr₁,hh₁⟩ := mergeBlocks_ok hadj hnb hns hnsize h.node_header.2 hs
      obtain ⟨hcur₁,hchain₁⟩ := h.absorb hadj hfr₁ hn₁
      obtain ⟨m',l,he,hl,hc,hfr,hh⟩ := linkBlock_refines (h.separated.sublist hsub)
        (fun b hb => h.size b (hsub.subset hb)) hjoin
        (by rw [Span.join_size]; exact hns.trans (Nat.le_add_right _ _)) h.before hgap hcur₁
        ⟨h.node_header.1,hs₁⟩ hchain₁
      refine ⟨m',l,?_,?_,hc,?_,fun hne => (hh hne).trans hh₁⟩
      · intro _ _
        rw [Span.join_start] at he
        simp only [he₁, he]
        rfl
      · rw [LinkedList.mergeBlocks_ok hadj hnb]
        exact hl
      · refine Frame.trans (hfr₁.mono ?_) (hfr.mono ?_)
        · simp only [covers_append, covers_cons, covers_nil, or_false]
          exact fun x hx => .inr (hx.elim .inr fun hb => .inl (.inl hb))
        · simp only [covers_append, covers_cons, covers_nil, or_false, Span.join_has hadj]
          exact fun x hx => hx.imp id fun hb => hb.elim .inr fun hb => .inl (.inl hb)
    · simp only [if_neg hadj]
      have hafter : next.stop ≤ node.start := by omega
      obtain ⟨m',l,he,hl,hc,hfr,hh⟩ := ih (h.advance hafter)
      refine ⟨m',current.toList ++ l,he,by rw [hl]; rfl,?_,?_,fun _ => hh (by simp)⟩
      · cases current with
        | none =>
          have hhead : m'.head = next.start := (hh (by simp)).trans hn
          rw [entry,hhead]
          exact hc
        | some cur =>
          have hcur := hfr.node (hcsize cur (by simp)) fun x hx => h.cur_apart rfl hx
          obtain ⟨hc0,hcs⟩ := h.header cur rfl
          refine ⟨rfl,hc0,hcur.1.trans hcs,?_⟩
          rw [entry,hcur.2,show m.next (.node cur.start) = next.start from hn]
          exact hc
      · exact hfr.mono fun x hx => by rw [covers_append]; exact .inr hx

/-- `add_free_block` on memory does what it does on lists, and writes only into free blocks
and the block it adds. -/
theorem addFreeBlock_refines (m : Memory) {free : List Block} (node : Block) (hsep : Separated free)
    (hsize : ∀ b ∈ free, nodeSize ≤ b.size) (hb : ∀ b ∈ free, Bounded b) (hnode : Bounded node)
    (hns : nodeSize ≤ node.size) (h0 : node.start ≠ 0) (hapart : ∀ b ∈ free, b.Apart node)
    (hchain : m.Chain m.head free) :
    ∃ m' l, (∀ fuel, free.length < fuel → m.addFreeBlock fuel node.start node.size = .ok (some m')) ∧
      LinkedList.addFreeBlock free node.start node.size = .ok l ∧ m'.Chain m'.head l ∧
      Frame (free ++ [node]) m m' := by
  obtain ⟨m₁,hm₁⟩ : ∃ m₁, m₁ = (m.setSize node.start node.size).setNext (.node node.start) 0 := ⟨_,rfl⟩
  have hfr₁ : Frame [node] m m₁ := by
    rw [hm₁]
    exact (frame_setSize (by simp) hns m _).trans (frame_setNext (by simp) hns _ _)
  have hlt : node.size < 2^64 := by unfold Bounded Span.stop at hnode; omega
  have hhead : m₁.head = m.head := by rw [hm₁]; rfl
  have hchain₁ : m₁.Chain m₁.head free := by
    rw [hhead]
    refine hchain.congr fun b hbm => hfr₁.node (hsize b hbm) ?_
    intro x hx hx'
    have hab := hapart b hbm
    simp only [covers_cons, covers_nil, or_false] at hx'
    simp only [Span.Has, Span.Apart] at hx hx' hab
    omega
  have hwalk : Walk m₁ node none free := by
    refine ⟨hsep,hsize,hb,hapart,by simp,by simp,hchain₁,⟨h0,?_⟩,?_⟩
    · rw [hm₁,size_setNext_self,size_setSize _ hlt]
    · rw [hm₁,next_setNext _ (by decide)]
  obtain ⟨m',l,he,hl,hc,hfr,_⟩ := addFreeBlockLoop_refines hnode hns free hwalk
  refine ⟨m',l,?_,hl,hc,?_⟩
  · intro fuel hf
    rw [addFreeBlock,← hm₁]
    exact he fuel hf
  · exact (hfr₁.mono fun x hx => by rw [covers_append]; exact .inr hx).trans hfr

/-- Taking `block` out from behind `current`. -/
private theorem unlink_block {m : Memory} {current : Option Block} {block : Block} {rest : List Block}
    (hsep : Separated (current.toList ++ block :: rest))
    (hsize : ∀ b ∈ current.toList ++ block :: rest, nodeSize ≤ b.size) (hs : m.size block.start = block.size)
    (hchain : m.Chain (m.next (.node block.start)) rest) {m' : Memory}
    (hm' : m' = ((m.setNext (.node block.start) 0).setNext (cursor current) 0).setNext (cursor current)
      (m.next (.node block.start))) :
    m'.size block.start = block.size ∧ m'.Chain (m'.next (cursor current)) rest ∧
      Frame (current.toList ++ [block]) m m' ∧ (current ≠ none → m'.head = m.head) ∧
      ∀ c ∈ current, m'.size c.start = m.size c.start := by
  have hcsize : ∀ b ∈ current.toList, nodeSize ≤ b.size := fun b hb => hsize b (by simp [hb])
  have hgap : ∀ c ∈ current, c.stop < block.start := by
    intro c hc
    cases hc
    exact hsep.head_gap (by simp)
  have hblock : Frame (current.toList ++ [block]) m (m.setNext (.node block.start) 0) :=
    frame_setNext (by simp) (hsize block (by simp)) m 0
  have hfr : Frame (current.toList ++ [block]) m m' := by
    rw [hm']
    exact (hblock.trans (frame_unlink _ 0 hcsize)).trans (frame_unlink _ _ hcsize)
  have hnext : m'.next (cursor current) = m.next (.node block.start) := by
    rw [hm']
    cases current with
    | none => rfl
    | some cur => rw [cursor,next_setNext _ (next_lt m _)]
  have hbr : Separated (block :: rest) := hsep.sublist (List.sublist_append_right _ _)
  refine ⟨?_,?_,hfr,?_,?_⟩
  · rw [hm']
    cases current with
    | none => rw [cursor,size_setNext_head,size_setNext_head,size_setNext_self,hs]
    | some cur =>
      have hsep16 : Sep block.start cur.start := by
        have h1 := hgap cur rfl
        have h2 := hcsize cur (by simp)
        unfold Sep Span.stop nodeSize at *
        omega
      rw [cursor,size_setNext_sep _ hsep16,size_setNext_sep _ hsep16,size_setNext_self,hs]
  · rw [hnext]
    refine hchain.congr fun b hb => hfr.node (hsize b (by simp [hb])) ?_
    intro x hx hc
    have h1 := hbr.head_gap hb
    rw [covers_append] at hc
    rcases hc with ⟨c,hc,hcx⟩ | hc
    · have h2 := hgap c (by simpa using hc)
      simp only [Span.Has, Span.stop] at *
      omega
    · simp only [covers_cons, covers_nil, or_false, Span.Has] at hc hx
      omega
  · intro hne
    cases current with
    | none => exact absurd rfl hne
    | some cur => rw [hm']; rfl
  · intro c hc
    cases hc
    have hsep16 : Sep c.start block.start := by
      have h1 := hgap c rfl
      have h2 := hcsize c (by simp)
      unfold Sep Span.stop nodeSize at *
      omega
    rw [hm',cursor,size_setNext_self,size_setNext_self,size_setNext_sep _ hsep16]

/-- The search on memory ends as the search on lists does; the node it takes out keeps its
`size` field, and the stored list is the one without that node. -/
theorem findFreeBlock_refines (size align : Nat) (rest : List Block) {m : Memory} (current : Option Block)
    (hsep : Separated (current.toList ++ rest)) (hsize : ∀ b ∈ current.toList ++ rest, nodeSize ≤ b.size)
    (hchain : m.Chain (m.next (cursor current)) rest) :
    match LinkedList.findFreeBlock size align rest with
    | .error e => ∀ fuel, rest.length < fuel → findFreeBlock size align fuel (cursor current) m = .error e
    | .ok none => ∀ fuel, rest.length < fuel →
        findFreeBlock size align fuel (cursor current) m = .ok (some (none,m))
    | .ok (some ((node,allocStart),l)) =>
      ∃ m', (∀ fuel, rest.length < fuel →
          findFreeBlock size align fuel (cursor current) m = .ok (some (some (node.start,allocStart),m'))) ∧
        m'.size node.start = node.size ∧ m'.Chain (m'.next (cursor current)) l ∧
        Frame (current.toList ++ rest) m m' ∧ (current ≠ none → m'.head = m.head) ∧
        ∀ c ∈ current, m'.size c.start = m.size c.start := by
  induction rest generalizing m current with
  | nil =>
    have hend : m.next (cursor current) = 0 := hchain
    simp only [LinkedList.findFreeBlock, forall_fuel, findFreeBlock, if_pos hend, pure, Except.pure, implies_true]
  | cons block rest ih =>
    obtain ⟨hn,h0,hs,hrest⟩ := hchain
    rw [hn] at h0 hs hrest
    have hsub : (block :: rest).Sublist (current.toList ++ block :: rest) := List.sublist_append_right _ _
    have hbr := hsep.sublist hsub
    cases hcheck : checkBlockForAlloc block size align with
    | error e =>
      simp only [LinkedList.findFreeBlock, forall_fuel, findFreeBlock, hn, if_neg h0, block_eq hs, hcheck, bind,
        Except.bind, implies_true]
    | ok r =>
      have hmem : ∀ fuel, findFreeBlock size align (fuel + 1) (cursor current) m =
          r.elim (findFreeBlock size align fuel (.node block.start) m) fun allocStart =>
            .ok (some (some (block.start,allocStart),
              ((m.setNext (.node block.start) 0).setNext (cursor current) 0).setNext (cursor current)
                (m.next (.node block.start)))) := by
        intro fuel
        simp only [findFreeBlock, hn, if_neg h0, block_eq hs, hcheck, bind, Except.bind, pure, Except.pure]
        cases r <;> rfl
      cases r with
      | some allocStart =>
        simp only [LinkedList.findFreeBlock, forall_fuel, hmem, Option.elim_some, hcheck, bind, Except.bind, pure,
          Except.pure]
        obtain ⟨hs',hc',hfr',hh',hcs'⟩ := unlink_block hsep hsize hs hrest rfl
        refine ⟨_,fun _ _ => rfl,hs',hc',hfr'.mono fun x hx => ?_,hh',hcs'⟩
        simp only [covers_append, covers_cons, covers_nil, or_false] at hx ⊢
        exact hx.imp id .inl
      | none =>
        have ih' := ih (some block) hbr (fun b hb => hsize b (hsub.subset hb)) hrest
        simp only [LinkedList.findFreeBlock, forall_fuel (n := rest.length + 1), List.length_cons,
          Nat.add_lt_add_iff_right, hmem, Option.elim_none, hcheck, bind, Except.bind, pure, Except.pure]
        cases hfind : LinkedList.findFreeBlock size align rest with
        | error e =>
          rw [hfind] at ih'
          exact ih'
        | ok r =>
          rw [hfind] at ih'
          cases r with
          | none => exact ih'
          | some r =>
            obtain ⟨⟨node,allocStart⟩,l⟩ := r
            obtain ⟨m',he,hs',hc',hfr',hh',hcs'⟩ := ih'
            have hcur : ∀ c ∈ current, m'.size c.start = m.size c.start ∧
                m'.next (.node c.start) = m.next (.node c.start) := by
              intro c hc
              cases hc
              refine hfr'.node (hsize c (by simp)) fun x hx => ?_
              rintro ⟨b,hb,hbx⟩
              have h1 := hsep.head_gap hb
              simp only [Span.Has] at hx hbx
              omega
            have hnext : m'.next (cursor current) = block.start := by
              rw [← hn]
              cases current with
              | none => exact hh' (by simp)
              | some cur => exact (hcur cur rfl).2
            refine ⟨m',he,hs',?_,hfr'.mono fun x hx => ?_,fun _ => hh' (by simp),fun c hc => (hcur c hc).1⟩
            · rw [hnext]
              exact ⟨rfl,h0,(hcs' block rfl).trans hs,hc'⟩
            · rw [covers_append]
              exact .inr hx

end HeineOS.LinkedList.Memory
