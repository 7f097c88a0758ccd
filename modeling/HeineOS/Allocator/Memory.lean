import HeineOS.Allocator.LinkedList
import HeineOS.Lib.Bytes

/-! The allocator over byte memory. A `ListNode` occupies the first 16 bytes of its free
block: `size` at offset 0 and `next` at offset 8, where the null pointer is `None`. The head
node lives in the allocator, outside the heap. Loops take fuel, and `none` says that it ran out. -/
namespace HeineOS.LinkedList
open Lib

/-- Where the walk over the list stands: at the head node or at a node in memory. -/
inductive Cursor where
  | head
  | node (addr : Nat)
  deriving DecidableEq, Repr

/-- Heap memory with the `next` field of the head node. -/
structure Memory where
  bytes : Bytes
  head : Nat

namespace Memory

def size (m : Memory) (addr : Nat) : Nat := m.bytes.load addr 8

def next (m : Memory) : Cursor → Nat
  | .head => m.head
  | .node addr => m.bytes.load (addr + 8) 8

def setSize (m : Memory) (addr v : Nat) : Memory := { m with bytes := m.bytes.store addr 8 v }

def setNext (m : Memory) (c : Cursor) (v : Nat) : Memory :=
  match c with
  | .head => { m with head := v }
  | .node addr => { m with bytes := m.bytes.store (addr + 8) 8 v }

/-- The block whose header stands at `addr`. -/
def block (m : Memory) (addr : Nat) : Block := ⟨addr,m.size addr⟩

def mergeBlocks (m : Memory) (prev next : Nat) : Checked Memory := do
  let merged ← LinkedList.mergeBlocks (m.block prev) (m.block next)
  let m := m.setSize prev merged.size
  let rest := m.next (.node next)
  let m := m.setNext (.node next) 0
  return m.setNext (.node prev) rest

/-- Behind the loop of `add_free_block`. -/
def linkBlock (m : Memory) (current : Cursor) (node : Nat) : Checked Memory :=
  match current with
  | .head => return m.setNext .head node
  | .node cur => do
    if 0 < m.size cur ∧ (← endAddr (m.block cur)) = node then
      m.mergeBlocks cur node
    else
      return m.setNext (.node cur) node

def addFreeBlockLoop (node : Nat) : Nat → Cursor → Memory → Checked (Option Memory)
  | 0, _, _ => return none
  | fuel + 1, current, m => do
    let next := m.next current
    if next = 0 then
      return some (← m.linkBlock current node)
    else
      checkOverlap (m.block node) (m.block next)
      let nodeEnd ← endAddr (m.block node)
      if nodeEnd < next then
        let m := (m.setNext current 0).setNext (.node node) next
        return some (← m.linkBlock current node)
      else if nodeEnd = next then
        let m ← m.mergeBlocks node next
        return some (← m.linkBlock current node)
      else
        addFreeBlockLoop node fuel (.node next) m

def addFreeBlock (fuel : Nat) (m : Memory) (addr size : Nat) : Checked (Option Memory) :=
  addFreeBlockLoop addr fuel .head ((m.setSize addr size).setNext (.node addr) 0)

def findFreeBlock (size align : Nat) : Nat → Cursor → Memory →
    Checked (Option (Option (Nat × Nat) × Memory))
  | 0, _, _ => return none
  | fuel + 1, current, m => do
    let block := m.next current
    if block = 0 then
      return some (none,m)
    else
      match ← checkBlockForAlloc (m.block block) size align with
      | some allocStart =>
        let next := m.next (.node block)
        let m := (m.setNext (.node block) 0).setNext current 0
        return some (some (block,allocStart),m.setNext current next)
      | none => findFreeBlock size align fuel (.node block) m

def alloc (fuel : Nat) (m : Memory) (layout : Layout) : Checked (Option (Option Nat × Memory)) := do
  let (size,align) ← sizeAlign layout
  match ← findFreeBlock size align fuel .head m with
  | none => return none
  | some (none,m) => return some (none,m)
  | some (some (node,allocStart),m) =>
    match Usize.checkedAdd allocStart size with
    | none => throw .overflow
    | some allocEnd =>
      let excess ← Usize.sub (← endAddr (m.block node)) allocEnd
      if 0 < excess then
        return (← addFreeBlock fuel m allocEnd excess).map fun m => (some allocStart,m)
      else
        return some (some allocStart,m)

def dealloc (fuel : Nat) (m : Memory) (ptr : Nat) (layout : Layout) : Checked (Option Memory) := do
  let (size,_) ← sizeAlign layout
  addFreeBlock fuel m ptr size

/-- The blocks met when following the stored `next` pointers. -/
def follow (m : Memory) : Nat → Nat → Option (List Block)
  | 0, _ => none
  | fuel + 1, addr =>
    if addr = 0 then some [] else (m.follow fuel (m.next (.node addr))).map (m.block addr :: ·)

end Memory

end HeineOS.LinkedList
