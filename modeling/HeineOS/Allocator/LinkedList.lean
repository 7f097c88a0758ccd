import HeineOS.Allocator.Layout
import HeineOS.Lib.Span

/-! The linked list allocator over the list of its free blocks. A free block stands for
its `ListNode`: the node's address is `start`, its `size` field is `size`, and its `next`
field is the rest of the list. -/
namespace HeineOS.LinkedList
open Lib

abbrev Block := Span

/-- `size_of::<ListNode>()` and `align_of::<ListNode>()`. -/
def nodeSize : Nat := 16
def nodeAlign : Nat := 8

def endAddr (b : Block) : Checked Nat := Usize.add b.start b.size

/-- Grow `prev` over `next`. The links are the caller's: the result is followed by
what followed `next`. -/
def mergeBlocks (prev next : Block) : Checked Block := do
  let prevEnd ← endAddr prev
  if prevEnd = next.start then
    return ⟨prev.start,← Usize.add prev.size next.size⟩
  else
    throw (.cannotMerge prevEnd next.start)

/-- Behind the loop of `add_free_block`: link `node`, followed by `next`, behind `current`
or merge it into `current`. The head node is `none`; it has size 0 and never merges. -/
def linkBlock (current : Option Block) (node : Block) (next : List Block) : Checked (List Block) :=
  match current with
  | none => return node :: next
  | some cur => do
    if 0 < cur.size ∧ (← endAddr cur) = node.start then
      return (← mergeBlocks cur node) :: next
    else
      return cur :: node :: next

/-- The overlap test of `add_free_block`; `next.end_addr()` is evaluated only when the
first comparison holds. -/
def checkOverlap (node next : Block) : Checked Unit := do
  if node.start ≥ next.start then
    if node.start < (← endAddr next) then
      throw (.doubleFree node.start)

/-- The loop of `add_free_block` with its exit: the list from `current` on, given the
list behind `current`. -/
def addFreeBlockLoop (node : Block) (current : Option Block) : List Block → Checked (List Block)
  | [] => linkBlock current node []
  | next :: rest => do
    checkOverlap node next
    let nodeEnd ← endAddr node
    if nodeEnd < next.start then
      linkBlock current node (next :: rest)
    else if nodeEnd = next.start then
      linkBlock current (← mergeBlocks node next) rest
    else
      return current.toList ++ (← addFreeBlockLoop node (some next) rest)

def addFreeBlock (free : List Block) (addr size : Nat) : Checked (List Block) :=
  addFreeBlockLoop ⟨addr,size⟩ none free

/-- `Ok(alloc_start)` is `some`, `Err(())` is `none`. -/
def checkBlockForAlloc (block : Block) (size align : Nat) : Checked (Option Nat) := do
  let allocStart ← alignUp block.start align
  match Usize.checkedAdd allocStart size with
  | none => return none
  | some allocEnd =>
    if allocEnd > (← endAddr block) then
      return none
    let excess ← Usize.sub (← endAddr block) allocEnd
    if 0 < excess ∧ excess < nodeSize then
      return none
    return some allocStart

/-- First fit: the block with its aligned start, and the list without the block. -/
def findFreeBlock (size align : Nat) : List Block → Checked (Option ((Block × Nat) × List Block))
  | [] => return none
  | block :: next => do
    match ← checkBlockForAlloc block size align with
    | some allocStart => return some ((block,allocStart),next)
    | none => return (← findFreeBlock size align next).map fun r => (r.1,block :: r.2)

/-- The block size and alignment that serve a layout. -/
def sizeAlign (layout : Layout) : Checked (Nat × Nat) :=
  match layout.alignTo nodeAlign with
  | none => throw .adjustingAlignmentFailed
  | some l => return (max l.padToAlign.size nodeSize,l.padToAlign.align)

/-- The null pointer is `none`. -/
def alloc (free : List Block) (layout : Layout) : Checked (Option Nat × List Block) := do
  let (size,align) ← sizeAlign layout
  match ← findFreeBlock size align free with
  | none => return (none,free)
  | some ((node,allocStart),free) =>
    match Usize.checkedAdd allocStart size with
    | none => throw .overflow
    | some allocEnd =>
      let excess ← Usize.sub (← endAddr node) allocEnd
      if 0 < excess then
        return (some allocStart,← addFreeBlock free allocEnd excess)
      else
        return (some allocStart,free)

def dealloc (free : List Block) (ptr : Nat) (layout : Layout) : Checked (List Block) := do
  let (size,_) ← sizeAlign layout
  addFreeBlock free ptr size

structure Allocator where
  free : List Block
  heapStart : Nat
  heapEnd : Nat
  deriving DecidableEq, Repr

def Allocator.new : Allocator := ⟨[],0,0⟩

def Allocator.init (self : Allocator) (heapStart heapSize : Nat) : Checked Allocator := do
  let free ← addFreeBlock self.free heapStart heapSize
  return ⟨free,heapStart,← Usize.add heapStart heapSize⟩

end HeineOS.LinkedList
