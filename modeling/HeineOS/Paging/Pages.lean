import HeineOS.Lib.Mark
import Mathlib.Data.BitVec

/-! The initial paging setup: every entry of the page tables below the root gets its USER bit, while the walk of the
hardware through the same tables decides where each virtual address goes. -/
namespace HeineOS.Paging
open HeineOS.Lib

/-- The words of physical memory by their address, a multiple of eight. The mapping of the bootloader is the
identity, so that the pointers of the kernel are physical addresses. -/
abbrev Memory := BitVec 64 → BitVec 64

namespace PageFlags

def PRESENT : BitVec 64 := 1 <<< 0
def WRITEABLE : BitVec 64 := 1 <<< 1
def USER : BitVec 64 := 1 <<< 2
def WRITE_THROUGH : BitVec 64 := 1 <<< 3
def CACHE_DISABLE : BitVec 64 := 1 <<< 4
def ACCESSED : BitVec 64 := 1 <<< 5
def DIRTY : BitVec 64 := 1 <<< 6
def HUGE_PAGE : BitVec 64 := 1 <<< 7
def GLOBAL : BitVec 64 := 1 <<< 8

def all : BitVec 64 :=
  PRESENT ||| WRITEABLE ||| USER ||| WRITE_THROUGH ||| CACHE_DISABLE ||| ACCESSED ||| DIRTY ||| HUGE_PAGE ||| GLOBAL

def fromBitsTruncate (bits : BitVec 64) : BitVec 64 := bits &&& all

def contains (flags other : BitVec 64) : Bool := flags &&& other == other

end PageFlags

open PageFlags

def readCr3 (value : BitVec 64) : BitVec 64 := value &&& 0xfffffffffffff000

/-- The address of an entry, `map.offset(i)`. -/
def entryAddress (map : BitVec 64) (i : Nat) : BitVec 64 := map + BitVec.ofNat 64 (8 * i)

def nextPageMap (entry : BitVec 64) : BitVec 64 := entry &&& 0x000ffffffffff000

/-- One round of the loop, with the recursive call on the next level as a parameter. -/
def setupEntry (recurse : BitVec 64 → Memory → Memory) (level : Nat) (map : BitVec 64) (m : Memory) (i : Nat) :
    Memory :=
  let entry := m (entryAddress map i)
  if entry ≠ 0 then
    let flags := fromBitsTruncate entry ||| USER
    let m := Function.update m (entryAddress map i) (entry ||| flags)
    if level > 1 ∧ ¬ contains flags HUGE_PAGE then recurse (nextPageMap entry) m else m
  else m

def setupInitialPageMap (map : BitVec 64) : (level : Nat) → Memory → Memory
  | 0, m => (List.range 512).foldl (setupEntry (fun _ m => m) 0 map) m
  | level + 1, m =>
    (List.range 512).foldl (setupEntry (fun next => setupInitialPageMap next level) (level + 1) map) m

/-- What the hardware finds for an address: the entries of the walk, the page size and the physical address. -/
structure Walk where
  entries : List (BitVec 64)
  size : Nat
  address : BitVec 64
  deriving DecidableEq, Repr

/-- The index bits of a virtual address at a level: nine bits from bit twelve on for level one, and so on. -/
def tableIndex (va : BitVec 48) (level : Nat) : Nat := va.toNat / 2 ^ (12 + 9 * (level - 1)) % 512

def pageSize (level : Nat) : Nat := 2 ^ (12 + 9 * (level - 1))

/-- An entry names a page at the last level, and at the two levels above it when bit 7 is set. -/
def isPage (level : Nat) (entry : BitVec 64) : Bool := level == 1 || (level ≤ 3 && entry.getLsbD 7)

def pageAddress (level : Nat) (entry : BitVec 64) (va : BitVec 48) : BitVec 64 :=
  let offset : BitVec 64 := BitVec.ofNat 64 (pageSize level - 1)
  ((entry &&& 0x000ffffffffff000) &&& ~~~ offset) ||| (va.setWidth 64 &&& offset)

/-- The walk of the hardware; `none` where an entry is not present. -/
def translate (m : Memory) (table : BitVec 64) : (level : Nat) → (va : BitVec 48) → Option Walk
  | 0, _ => none
  | level + 1, va =>
    let entry := m (entryAddress table (tableIndex va (level + 1)))
    if entry.getLsbD 0 = false then none
    else if isPage (level + 1) entry then some ⟨[entry],pageSize (level + 1),pageAddress (level + 1) entry va⟩
    else (translate m (nextPageMap entry) level va).map fun w => { w with entries := entry :: w.entries }

/-- The same walk with USER set at every level. -/
def Walk.withUser (w : Walk) : Walk := { w with entries := w.entries.map (· ||| USER) }

/-! ### Entries with the USER bit -/

/-- What the loop makes of an entry. -/
def setUser (entry : BitVec 64) : BitVec 64 := if entry = 0 then 0 else entry ||| USER

theorem or_flags (entry : BitVec 64) : entry ||| (fromBitsTruncate entry ||| USER) = entry ||| USER := by
  rw [← BitVec.or_assoc]
  congr 1
  ext i
  simp [fromBitsTruncate]
  intro h _
  exact h

theorem getLsbD_setUser (entry : BitVec 64) {i : Nat} (hi : i ≠ 2) : (setUser entry).getLsbD i = entry.getLsbD i := by
  rw [setUser]
  split
  · simp_all
  · have huser : USER = BitVec.twoPow 64 2 := by decide
    have hbit : USER.getLsbD i = false := by
      rw [huser,BitVec.getLsbD_twoPow]
      simp [hi.symm]
    rw [BitVec.getLsbD_or,hbit,Bool.or_false]

@[simp] theorem setUser_eq_zero (entry : BitVec 64) : setUser entry = 0 ↔ entry = 0 := by
  rw [setUser]
  split
  · simp_all
  · rename_i h
    constructor
    · intro hz
      have hbit : (entry ||| USER).getLsbD 2 = (0 : BitVec 64).getLsbD 2 := by rw [hz]
      rw [BitVec.getLsbD_or] at hbit
      simp [USER] at hbit
    · intro hz
      exact absurd hz h

@[simp] theorem setUser_setUser (entry : BitVec 64) : setUser (setUser entry) = setUser entry := by
  by_cases h : entry = 0
  · simp [setUser, h]
  · have hset : setUser entry ≠ 0 := fun hz => h ((setUser_eq_zero entry).mp hz)
    rw [setUser,if_neg hset,setUser,if_neg h,BitVec.or_assoc,BitVec.or_self]

@[simp] theorem nextPageMap_setUser (entry : BitVec 64) : nextPageMap (setUser entry) = nextPageMap entry := by
  rw [setUser]
  split
  · simp_all
  · have hclear : USER &&& 0x000ffffffffff000 = 0#64 := by decide
    rw [nextPageMap,nextPageMap,BitVec.and_or_distrib_right,hclear,BitVec.or_zero]

theorem contains_huge (entry : BitVec 64) :
    contains (fromBitsTruncate entry ||| USER) HUGE_PAGE = entry.getLsbD 7 := by
  have hhuge : HUGE_PAGE = BitVec.twoPow 64 7 := by decide
  have hbit : (fromBitsTruncate entry ||| USER).getLsbD 7 = entry.getLsbD 7 := by
    simp [fromBitsTruncate, all, USER, PRESENT, WRITEABLE, WRITE_THROUGH, CACHE_DISABLE, ACCESSED, DIRTY, HUGE_PAGE,
      GLOBAL]
  rw [contains,hhuge,BitVec.and_twoPow,hbit]
  cases entry.getLsbD 7 <;> decide

/-! ### The setup as marking -/

/-- The addresses one round comes to: its entry, and what the next level comes to if the round descends. -/
def touch (below : Memory → BitVec 64 → Set (BitVec 64)) (level : Nat) (map : BitVec 64) (m : Memory) (i : Nat) :
    Set (BitVec 64) :=
  {a | a = entryAddress map i ∨ (m (entryAddress map i) ≠ 0 ∧ level > 1 ∧
    (m (entryAddress map i)).getLsbD 7 = false ∧ a ∈ below m (nextPageMap (m (entryAddress map i))))}

/-- The addresses the setup comes to. -/
def visited : (level : Nat) → Memory → BitVec 64 → Set (BitVec 64)
  | 0, m, map => {a | ∃ i ∈ List.range 512, a ∈ touch (fun _ _ => ∅) 0 map m i}
  | level + 1, m, map => {a | ∃ i ∈ List.range 512, a ∈ touch (visited level) (level + 1) map m i}

/-- Marks do not change where the setup goes: none of what decides it is the USER bit. -/
theorem touch_mark {below : Memory → BitVec 64 → Set (BitVec 64)}
    (hbelow : ∀ S m next, below (mark setUser S m) next = below m next) (level : Nat) (map : BitVec 64)
    (S : Set (BitVec 64)) (m : Memory) (i : Nat) :
    touch below level map (mark setUser S m) i = touch below level map m i := by
  rw [touch,touch]
  rcases mark_cases setUser S m (entryAddress map i) with h | h
  · have hbit := getLsbD_setUser (m (entryAddress map i)) (i := 7) (by decide)
    simp only [h, hbelow, hbit, ne_eq, setUser_eq_zero, nextPageMap_setUser]
  · simp only [h, hbelow]

theorem visited_mark (level : Nat) (S : Set (BitVec 64)) (m : Memory) (map : BitVec 64) :
    visited level (mark setUser S m) map = visited level m map := by
  induction level generalizing S m map with
  | zero =>
    have htouch : ∀ i, touch (fun _ _ => ∅) 0 map (mark setUser S m) i = touch (fun _ _ => ∅) 0 map m i :=
      touch_mark (fun _ _ _ => rfl) 0 map S m
    simp only [visited, htouch]
  | succ level ih => simp only [visited, touch_mark ih]

section Round
variable {below : Memory → BitVec 64 → Set (BitVec 64)} {level : Nat} {map : BitVec 64} {m : Memory} {i : Nat}

theorem touch_of_stop
    (h : ¬ (m (entryAddress map i) ≠ 0 ∧ level > 1 ∧ (m (entryAddress map i)).getLsbD 7 = false)) :
    touch below level map m i = {entryAddress map i} := by
  ext a
  constructor
  · intro ha
    rcases ha with ha | ⟨hzero,hlevel,hbit,_⟩
    · exact ha
    · exact absurd ⟨hzero,hlevel,hbit⟩ h
  · exact fun ha => .inl ha

theorem touch_of_descend (hzero : m (entryAddress map i) ≠ 0) (hlevel : level > 1)
    (hbit : (m (entryAddress map i)).getLsbD 7 = false) :
    touch below level map m i = {entryAddress map i} ∪ below m (nextPageMap (m (entryAddress map i))) := by
  ext a
  constructor
  · intro ha
    rcases ha with ha | ⟨_,_,_,ha⟩
    · exact .inl ha
    · exact .inr ha
  · intro ha
    rcases ha with ha | ha
    · exact .inl ha
    · exact .inr ⟨hzero,hlevel,hbit,ha⟩

/-- A round marks the addresses it comes to, also where the next level leads back to its own entry. -/
private theorem setupEntry_eq {recurse : BitVec 64 → Memory → Memory}
    (hrecurse : ∀ next m, recurse next m = mark setUser (below m next) m)
    (hbelow : ∀ S m next, below (mark setUser S m) next = below m next) :
    setupEntry recurse level map m i = mark setUser (touch below level map m i) m := by
  have hentry : Function.update m (entryAddress map i) (setUser (m (entryAddress map i))) =
      mark setUser {entryAddress map i} m := update_eq_mark _
  by_cases hzero : m (entryAddress map i) = 0
  · have hkeep : setUser (m (entryAddress map i)) = m (entryAddress map i) := by rw [hzero,setUser,if_pos rfl]
    rw [touch_of_stop (fun h => h.1 hzero),← hentry,hkeep,Function.update_eq_self,setupEntry]
    simp [hzero]
  · have hset : m (entryAddress map i) ||| (fromBitsTruncate (m (entryAddress map i)) ||| USER) =
        setUser (m (entryAddress map i)) := by rw [or_flags,setUser,if_neg hzero]
    rw [setupEntry]
    simp only [ne_eq, hzero, not_false_eq_true, if_true, hset, contains_huge, hentry, hrecurse, hbelow,
      Bool.not_eq_true]
    split
    · rename_i hdown
      rw [mark_mark setUser_setUser,touch_of_descend hzero hdown.1 hdown.2]
    · rename_i hstop
      rw [touch_of_stop fun h => hstop h.2]

end Round

/-- The setup marks exactly the addresses it comes to, whatever tables are shared or refer to themselves. -/
theorem setupInitialPageMap_eq (map : BitVec 64) (level : Nat) (m : Memory) :
    setupInitialPageMap map level m = mark setUser (visited level m map) m := by
  induction level generalizing map m with
  | zero =>
    have hround : ∀ m i, setupEntry (fun _ m => m) 0 map m i = mark setUser (touch (fun _ _ => ∅) 0 map m i) m :=
      fun _ _ => setupEntry_eq (fun _ _ => mark_empty.symm) (fun _ _ _ => rfl)
    exact foldl_mark setUser_setUser hround (touch_mark (fun _ _ _ => rfl) 0 map) _ m
  | succ level ih =>
    have hround : ∀ m i, setupEntry (fun next => setupInitialPageMap next level) (level + 1) map m i =
        mark setUser (touch (visited level) (level + 1) map m i) m := fun _ _ => setupEntry_eq ih (visited_mark level)
    exact foldl_mark setUser_setUser hround (touch_mark (visited_mark level) (level + 1) map) _ m

/-! ### The walk of the hardware -/

private theorem tableIndex_lt (va : BitVec 48) (level : Nat) : tableIndex va level < 512 := Nat.mod_lt _ (by decide)

private theorem pageAddress_setUser (level : Nat) (entry : BitVec 64) (va : BitVec 48) :
    pageAddress level (setUser entry) va = pageAddress level entry va := by
  have hnext := nextPageMap_setUser entry
  rw [nextPageMap,nextPageMap] at hnext
  rw [pageAddress,pageAddress,hnext]

private theorem isPage_setUser (level : Nat) (entry : BitVec 64) :
    isPage level (setUser entry) = isPage level entry := by
  rw [isPage,isPage,getLsbD_setUser entry (by decide)]

/-- The setup descends wherever the hardware does. -/
private theorem descends_of_not_page {level : Nat} {entry : BitVec 64} (hpage : ¬ isPage (level + 1) entry)
    (hlevel : level + 1 ≤ 4) (hfour : level + 1 = 4 → entry.getLsbD 7 = false) :
    level + 1 > 1 ∧ entry.getLsbD 7 = false := by
  simp only [isPage, Bool.or_eq_true, beq_iff_eq, Bool.and_eq_true, decide_eq_true_eq, not_or, not_and,
    Bool.not_eq_true] at hpage
  obtain ⟨hlast,hhuge⟩ := hpage
  by_cases hthree : level + 1 ≤ 3
  · exact ⟨by omega,hhuge hthree⟩
  · exact ⟨by omega,hfour (by omega)⟩

/-- The walk goes the same way through marked tables, and meets the mark in each of its entries. At level four it
needs bit 7 clear, which the setup takes for a huge page and the hardware does not. -/
private theorem translate_mark {S : Set (BitVec 64)} {m : Memory} (level : Nat) (table : BitVec 64) (va : BitVec 48)
    (hlevel : level ≤ 4) (hroot : level = 4 → ∀ i < 512, (m (entryAddress table i)).getLsbD 7 = false)
    (hmarked : visited level m table ⊆ S) :
    translate (mark setUser S m) table level va = (translate m table level va).map Walk.withUser := by
  induction level generalizing table with
  | zero => rfl
  | succ level ih =>
    have hindex := tableIndex_lt va (level + 1)
    have hmem : entryAddress table (tableIndex va (level + 1)) ∈ S :=
      hmarked ⟨_,List.mem_range.mpr hindex,.inl rfl⟩
    have hentry := mark_of_mem (f := setUser) (m := m) hmem
    have hchild : ∀ a, m (entryAddress table (tableIndex va (level + 1))) ≠ 0 → level + 1 > 1 →
        (m (entryAddress table (tableIndex va (level + 1)))).getLsbD 7 = false →
        a ∈ visited level m (nextPageMap (m (entryAddress table (tableIndex va (level + 1))))) → a ∈ S :=
      fun _ hzero hlevel hbit ha => hmarked ⟨_,List.mem_range.mpr hindex,.inr ⟨hzero,hlevel,hbit,ha⟩⟩
    have hfour : level + 1 = 4 → (m (entryAddress table (tableIndex va (level + 1)))).getLsbD 7 = false :=
      fun h => hroot h _ hindex
    rw [translate,translate,hentry]
    generalize m (entryAddress table (tableIndex va (level + 1))) = entry at hchild hfour
    by_cases hpresent : entry.getLsbD 0 = false
    · simp only [getLsbD_setUser entry (i := 0) (by decide), hpresent, if_true, Option.map_none]
    · have hzero : entry ≠ 0 := by
        intro hz
        rw [hz] at hpresent
        exact hpresent rfl
      have huser : setUser entry = entry ||| USER := if_neg hzero
      simp only [getLsbD_setUser entry (i := 0) (by decide), if_neg hpresent, isPage_setUser, pageAddress_setUser,
        nextPageMap_setUser]
      by_cases hpage : isPage (level + 1) entry
      · rw [if_pos hpage,if_pos hpage,huser]
        rfl
      · obtain ⟨hdown,hbit⟩ := descends_of_not_page hpage hlevel hfour
        rw [if_neg hpage,if_neg hpage,huser,ih _ (by omega) (by omega) fun a => hchild a hzero hdown hbit]
        rw [Option.map_map,Option.map_map]
        rfl

/-- Making pages accessible to user mode keeps the address translation: every walk ends at the same page with USER
set at each of its levels, unmapped addresses stay unmapped, no word changes but in bit 2 and a second run changes
nothing. -/
theorem setup_keeps_translation (cr3 : BitVec 64) (m : Memory)
    (hpml4 : ∀ i < 512, (m (entryAddress (readCr3 cr3) i)).getLsbD 7 = false) :
    (∀ va, translate (setupInitialPageMap (readCr3 cr3) 4 m) (readCr3 cr3) 4 va =
      (translate m (readCr3 cr3) 4 va).map Walk.withUser) ∧
    (∀ a i, i ≠ 2 → (setupInitialPageMap (readCr3 cr3) 4 m a).getLsbD i = (m a).getLsbD i) ∧
    setupInitialPageMap (readCr3 cr3) 4 (setupInitialPageMap (readCr3 cr3) 4 m) =
      setupInitialPageMap (readCr3 cr3) 4 m := by
  refine ⟨?_,?_,?_⟩
  · intro va
    rw [setupInitialPageMap_eq]
    exact translate_mark 4 (readCr3 cr3) va le_rfl (fun _ => hpml4) (fun _ ha => ha)
  · intro a i hi
    rw [setupInitialPageMap_eq]
    rcases mark_cases setUser (visited 4 m (readCr3 cr3)) m a with h | h
    · rw [h,getLsbD_setUser _ hi]
    · rw [h]
  · rw [setupInitialPageMap_eq (readCr3 cr3) 4 m,setupInitialPageMap_eq,visited_mark,mark_again setUser_setUser]

/-- A root that refers to itself: it is the table of every level, and the page of address zero. -/
def selfMap : Memory := fun a => if a = 0x1000 then 0x1003 else 0

private theorem selfMap_bit (a : BitVec 64) : (selfMap a).getLsbD 7 = false := by
  rw [selfMap]
  split <;> decide

theorem setup_keeps_translation_self_map :
    (∀ i < 512, (selfMap (entryAddress (readCr3 0x1000) i)).getLsbD 7 = false) ∧
    translate selfMap (readCr3 0x1000) 4 0 = some ⟨[0x1003,0x1003,0x1003,0x1003],4096,0x1000⟩ ∧
    translate (setupInitialPageMap (readCr3 0x1000) 4 selfMap) (readCr3 0x1000) 4 0 =
      some ⟨[0x1007,0x1007,0x1007,0x1007],4096,0x1000⟩ := by
  have hmapped : translate selfMap (readCr3 0x1000) 4 0 = some ⟨[0x1003,0x1003,0x1003,0x1003],4096,0x1000⟩ := by
    decide
  have hafter := (setup_keeps_translation 0x1000 selfMap fun _ _ => selfMap_bit _).1 0
  rw [hmapped] at hafter
  exact ⟨fun _ _ => selfMap_bit _,hmapped,hafter⟩

end HeineOS.Paging
