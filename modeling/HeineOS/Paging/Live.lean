import HeineOS.Paging.Pages
import Mathlib.Logic.Relation

/-! The words that the paging setup reads and writes, against the page tables that the hardware can reach. -/
namespace HeineOS.Paging
open HeineOS.Lib PageFlags Relation

/-- The memory, and the addresses that were read and written so far. -/
structure Run where
  memory : Memory
  read : List (BitVec 64)
  written : List (BitVec 64)

/-- `setupEntry` with its accesses. -/
def loggedEntry (recurse : BitVec 64 → Run → Run) (level : Nat) (map : BitVec 64) (r : Run) (i : Nat) : Run :=
  let entry := r.memory (entryAddress map i)
  let r := { r with read := r.read ++ [entryAddress map i] }
  if entry ≠ 0 then
    let flags := fromBitsTruncate entry ||| USER
    let r := { r with
      memory := Function.update r.memory (entryAddress map i) (entry ||| flags)
      written := r.written ++ [entryAddress map i] }
    if level > 1 ∧ ¬ contains flags HUGE_PAGE then recurse (nextPageMap entry) r else r
  else r

def loggedPageMap (map : BitVec 64) : (level : Nat) → Run → Run
  | 0, r => (List.range 512).foldl (loggedEntry (fun _ r => r) 0 map) r
  | level + 1, r => (List.range 512).foldl (loggedEntry (fun next => loggedPageMap next level) (level + 1) map) r

/-- The run reads the words of a set, marks them and writes those that are not zero. -/
structure Logs (S : Set (BitVec 64)) (r r' : Run) : Prop where
  memory : r'.memory = mark setUser S r.memory
  read : ∀ a, a ∈ r'.read ↔ a ∈ r.read ∨ a ∈ S
  written : ∀ a, a ∈ r'.written ↔ a ∈ r.written ∨ (a ∈ S ∧ r.memory a ≠ 0)

theorem Logs.empty (r : Run) : Logs ∅ r r where
  memory := mark_empty.symm
  read := by simp
  written := by simp

theorem Logs.trans {S T : Set (BitVec 64)} {r r' r'' : Run} (h : Logs S r r') (h' : Logs T r' r'') :
    Logs (S ∪ T) r r'' where
  memory := by rw [h'.memory,h.memory,mark_mark setUser_setUser]
  read := by
    intro a
    rw [h'.read,h.read,Set.mem_union,or_assoc]
  written := by
    intro a
    have hzero : r'.memory a ≠ 0 ↔ r.memory a ≠ 0 := by
      rw [h.memory]
      rcases mark_cases setUser S r.memory a with hm | hm
      · rw [hm,ne_eq,setUser_eq_zero]
      · rw [hm]
    rw [h'.written,h.written,hzero,Set.mem_union,or_and_right,or_assoc]

section Round
variable {below : Memory → BitVec 64 → Set (BitVec 64)} {recurse : BitVec 64 → Run → Run}
  (hrecurse : ∀ next r, Logs (below r.memory next) r (recurse next r))
  (hbelow : ∀ S m next, below (mark setUser S m) next = below m next)
include hrecurse hbelow

private theorem loggedEntry_logs (level : Nat) (map : BitVec 64) (r : Run) (i : Nat) :
    Logs (touch below level map r.memory i) r (loggedEntry recurse level map r i) := by
  by_cases hzero : r.memory (entryAddress map i) = 0
  · have hentry : loggedEntry recurse level map r i = { r with read := r.read ++ [entryAddress map i] } := by
      simp [loggedEntry, hzero]
    rw [hentry,touch_of_stop fun h => h.1 hzero]
    constructor
    case memory =>
      change r.memory = _
      rw [← update_eq_mark,setUser,if_pos hzero,← hzero,Function.update_eq_self]
    case read => simp
    case written =>
      intro a
      have hnone : ¬ (a ∈ ({entryAddress map i} : Set (BitVec 64)) ∧ r.memory a ≠ 0) := by
        intro h
        rw [Set.mem_singleton_iff] at h
        rw [h.1] at h
        exact h.2 hzero
      rw [or_iff_left hnone]
  · have hset : r.memory (entryAddress map i) ||| (fromBitsTruncate (r.memory (entryAddress map i)) ||| USER) =
        setUser (r.memory (entryAddress map i)) := by rw [or_flags,setUser,if_neg hzero]
    have hwrite : Logs {entryAddress map i} r
        ⟨mark setUser {entryAddress map i} r.memory,r.read ++ [entryAddress map i],
          r.written ++ [entryAddress map i]⟩ := by
      refine ⟨rfl,by simp,?_⟩
      intro a
      rw [List.mem_append,List.mem_singleton,Set.mem_singleton_iff]
      have hword : a = entryAddress map i ↔ a = entryAddress map i ∧ r.memory a ≠ 0 := by
        constructor
        · intro ha
          rw [ha]
          exact ⟨rfl,hzero⟩
        · exact And.left
      rw [← hword]
    rw [loggedEntry]
    simp only [ne_eq, hzero, not_false_eq_true, if_true, hset, contains_huge, update_eq_mark, Bool.not_eq_true]
    split
    · rename_i hdown
      rw [touch_of_descend hzero hdown.1 hdown.2]
      have hrest := hrecurse (nextPageMap (r.memory (entryAddress map i)))
        ⟨mark setUser {entryAddress map i} r.memory,r.read ++ [entryAddress map i],
          r.written ++ [entryAddress map i]⟩
      rw [hbelow] at hrest
      exact hwrite.trans hrest
    · rename_i hstop
      rw [touch_of_stop fun h => hstop h.2]
      exact hwrite

/-- The rounds of a loop log what each of them comes to. -/
private theorem foldl_logs (level : Nat) (map : BitVec 64) (is : List Nat) (r : Run) :
    Logs {a | ∃ i ∈ is, a ∈ touch below level map r.memory i} r (is.foldl (loggedEntry recurse level map) r) := by
  induction is generalizing r with
  | nil =>
    have hnone : {a | ∃ i ∈ ([] : List Nat), a ∈ touch below level map r.memory i} = ∅ := by
      ext a
      simp
    rw [hnone]
    exact .empty r
  | cons i is ih =>
    have hfirst := loggedEntry_logs hrecurse hbelow level map r i
    have hrest := ih (loggedEntry recurse level map r i)
    rw [hfirst.memory] at hrest
    simp only [touch_mark hbelow] at hrest
    have hsplit : {a | ∃ j ∈ i :: is, a ∈ touch below level map r.memory j} =
        touch below level map r.memory i ∪ {a | ∃ j ∈ is, a ∈ touch below level map r.memory j} := by
      ext a
      simp
    rw [hsplit]
    exact hfirst.trans hrest

end Round

/-- The setup reads every word that it comes to, and writes those that are not zero. -/
theorem loggedPageMap_logs (map : BitVec 64) (level : Nat) (r : Run) :
    Logs (visited level r.memory map) r (loggedPageMap map level r) := by
  induction level generalizing map r with
  | zero => exact foldl_logs (fun _ r => .empty r) (fun _ _ _ => rfl) 0 map _ r
  | succ level ih => exact foldl_logs (fun next r => ih next r) (visited_mark level) (level + 1) map _ r

/-- The log does not change what the setup does. -/
theorem loggedPageMap_memory (map : BitVec 64) (level : Nat) (r : Run) :
    (loggedPageMap map level r).memory = setupInitialPageMap map level r.memory := by
  rw [(loggedPageMap_logs map level r).memory,setupInitialPageMap_eq]

/-! ### Tables -/

/-- A present entry that is not marked as a huge page, which the hardware follows. -/
def Present (entry : BitVec 64) : Prop := entry.getLsbD 0 = true ∧ entry.getLsbD 7 = false

/-- An entry that the setup follows. -/
def Followed (entry : BitVec 64) : Prop := entry ≠ 0 ∧ entry.getLsbD 7 = false

/-- An entry that the setup follows and the hardware does not. -/
def Dangling (entry : BitVec 64) : Prop := Followed entry ∧ entry.getLsbD 0 = false

/-- An entry of the first table, at a level above one, leads to the second table one level below. -/
def LeadsTo (follow : BitVec 64 → Prop) (m : Memory) (t t' : Nat × BitVec 64) : Prop :=
  1 < t.1 ∧ t.1 = t'.1 + 1 ∧
    ∃ i < 512, follow (m (entryAddress t.2 i)) ∧ t'.2 = nextPageMap (m (entryAddress t.2 i))

theorem LeadsTo.imp {follow follow' : BitVec 64 → Prop} {m : Memory} {t t' : Nat × BitVec 64}
    (hfollow : ∀ entry, follow entry → follow' entry) (h : LeadsTo follow m t t') : LeadsTo follow' m t t' := by
  obtain ⟨hlevel,hdown,i,hi,hentry,hnext⟩ := h
  exact ⟨hlevel,hdown,i,hi,hfollow _ hentry,hnext⟩

def entriesOf (t : Nat × BitVec 64) : Set (BitVec 64) := {a | ∃ i < 512, a = entryAddress t.2 i}

/-- The page tables that the hardware can reach, with their levels. -/
def Live (m : Memory) (pml4 : BitVec 64) (t : Nat × BitVec 64) : Prop :=
  ReflTransGen (LeadsTo Present m) (4,pml4) t

/-- The entries of these tables. -/
def liveEntries (m : Memory) (pml4 : BitVec 64) : Set (BitVec 64) := {a | ∃ t, Live m pml4 t ∧ a ∈ entriesOf t}

/-- The setup comes to the entries of the tables that it follows. -/
theorem mem_visited {level : Nat} {m : Memory} {map a : BitVec 64} :
    a ∈ visited level m map ↔ ∃ t, ReflTransGen (LeadsTo Followed m) (level,map) t ∧ a ∈ entriesOf t := by
  induction level generalizing map with
  | zero =>
    constructor
    · intro h
      obtain ⟨i,hi,h⟩ := h
      rcases h with h | ⟨_,_,_,h⟩
      · exact ⟨(0,map),.refl,i,List.mem_range.mp hi,h⟩
      · exact h.elim
    · intro h
      obtain ⟨t,hpath,i,hi,ha⟩ := h
      rcases ReflTransGen.cases_head_iff.mp hpath with rfl | ⟨_,hstep,_⟩
      · exact ⟨i,List.mem_range.mpr hi,.inl ha⟩
      · exact absurd hstep.1 (Nat.not_lt_zero 1)
  | succ level ih =>
    constructor
    · intro h
      obtain ⟨i,hi,h⟩ := h
      have hi' := List.mem_range.mp hi
      rcases h with h | ⟨hzero,hlevel,hbit,h⟩
      · exact ⟨(level + 1,map),.refl,i,hi',h⟩
      · obtain ⟨t,hpath,ha⟩ := ih.mp h
        exact ⟨t,.head ⟨hlevel,rfl,i,hi',⟨hzero,hbit⟩,rfl⟩ hpath,ha⟩
    · intro h
      obtain ⟨t,hpath,ha⟩ := h
      rcases ReflTransGen.cases_head_iff.mp hpath with rfl | ⟨⟨level',map'⟩,⟨hlevel,hdown,i,hi,hfollow,hnext⟩,hpath⟩
      · obtain ⟨i,hi,ha⟩ := ha
        exact ⟨i,List.mem_range.mpr hi,.inl ha⟩
      · obtain rfl : level = level' := Nat.succ.inj hdown
        have hmap : map' = nextPageMap (m (entryAddress map i)) := hnext
        rw [hmap] at hpath
        exact ⟨i,List.mem_range.mpr hi,.inr ⟨hfollow.1,hlevel,hfollow.2,ih.mpr ⟨t,hpath,ha⟩⟩⟩

private theorem Present.followed {entry : BitVec 64} (h : Present entry) : Followed entry := by
  refine ⟨?_,h.2⟩
  intro hzero
  rw [hzero] at h
  exact absurd h.1 (by decide)

/-- The way to a table that the setup follows stays in live tables, or leaves them at an entry that is not present. -/
private theorem followed_cases {m : Memory} {root t : Nat × BitVec 64}
    (h : ReflTransGen (LeadsTo Followed m) root t) :
    ReflTransGen (LeadsTo Present m) root t ∨
      ∃ t₁ t₂, ReflTransGen (LeadsTo Present m) root t₁ ∧ LeadsTo Dangling m t₁ t₂ ∧
        ReflTransGen (LeadsTo Followed m) t₂ t := by
  induction h with
  | refl => exact .inl .refl
  | tail _ hstep ih =>
    rcases ih with hlive | ⟨t₁,t₂,hlive,hdangling,hrest⟩
    · obtain ⟨hlevel,hdown,i,hi,hfollow,hnext⟩ := hstep
      cases hbit : (m (entryAddress _ i)).getLsbD 0 with
      | true => exact .inl (hlive.tail ⟨hlevel,hdown,i,hi,⟨hbit,hfollow.2⟩,hnext⟩)
      | false => exact .inr ⟨_,_,hlive,⟨hlevel,hdown,i,hi,⟨hfollow,hbit⟩,hnext⟩,.refl⟩
    · exact .inr ⟨t₁,t₂,hlive,hdangling,hrest.tail hstep⟩

/-- What the setup reads and writes are entries of live tables. -/
def OnlyLive (m : Memory) (pml4 : BitVec 64) : Prop :=
  (∀ a ∈ (loggedPageMap pml4 4 ⟨m,[],[]⟩).written, a ∈ liveEntries m pml4) ∧
    ∀ a ∈ (loggedPageMap pml4 4 ⟨m,[],[]⟩).read, a ∈ liveEntries m pml4

/-- The setup keeps to live tables exactly when every entry of a live table that is not present, but neither zero nor
marked as a huge page, leads to nothing but entries of live tables. -/
theorem only_live_iff (m : Memory) (pml4 : BitVec 64) :
    OnlyLive m pml4 ↔
      ∀ t, Live m pml4 t → ∀ t₁, LeadsTo Dangling m t t₁ → ∀ t₂, ReflTransGen (LeadsTo Followed m) t₁ t₂ →
        entriesOf t₂ ⊆ liveEntries m pml4 := by
  have hlogs := loggedPageMap_logs pml4 4 ⟨m,[],[]⟩
  constructor
  · intro honly t hlive t₁ hdangling t₂ hpath a ha
    have hfollowed : ReflTransGen (LeadsTo Followed m) (4,pml4) t :=
      ReflTransGen.mono (fun _ _ => LeadsTo.imp fun _ => Present.followed) _ _ hlive
    have hstep : LeadsTo Followed m t t₁ := hdangling.imp fun _ => And.left
    have hvisited : a ∈ visited 4 m pml4 := mem_visited.mpr ⟨t₂,(hfollowed.tail hstep).trans hpath,ha⟩
    exact honly.2 a ((hlogs.read a).mpr (.inr hvisited))
  · intro hcond
    have hvisited (a : BitVec 64) (ha : a ∈ visited 4 m pml4) : a ∈ liveEntries m pml4 := by
      obtain ⟨t,hpath,hentry⟩ := mem_visited.mp ha
      rcases followed_cases hpath with hlive | ⟨t₁,t₂,hlive,hdangling,hrest⟩
      · exact ⟨t,hlive,hentry⟩
      · exact hcond t₁ hlive t₂ hdangling t hrest hentry
    constructor
    · intro a ha
      rcases (hlogs.written a).mp ha with ha | ⟨ha,_⟩
      · exact absurd ha List.not_mem_nil
      · exact hvisited a ha
    · intro a ha
      rcases (hlogs.read a).mp ha with ha | ha
      · exact absurd ha List.not_mem_nil
      · exact hvisited a ha

/-- An entry that is not present and that names the next page, with a word of data there. -/
def swappedOut : Memory := fun a => if a = 0x1000 then 0x2000 else if a = 0x2000 then 8 else 0

private theorem swappedOut_absent (a : BitVec 64) : (swappedOut a).getLsbD 0 = false := by
  rw [swappedOut]
  split_ifs <;> decide

private theorem swappedOut_live {t : Nat × BitVec 64} (h : Live swappedOut 0x1000 t) : t = (4,0x1000) := by
  rcases ReflTransGen.cases_head_iff.mp h with h | ⟨_,⟨_,_,i,_,hpresent,_⟩,_⟩
  · exact h.symm
  · rw [Present,swappedOut_absent] at hpresent
    exact absurd hpresent.1 (by decide)

/-- The word of data is written. -/
theorem setup_writes_data : ¬ OnlyLive swappedOut 0x1000 := by
  intro honly
  have hstep : LeadsTo Followed swappedOut (4,0x1000) (3,0x2000) :=
    ⟨by decide,rfl,0,by decide,⟨by decide,by decide⟩,by decide⟩
  have hvisited : 0x2000 ∈ visited 4 swappedOut 0x1000 :=
    mem_visited.mpr ⟨_,.single hstep,0,by decide,by decide⟩
  have hlogs := loggedPageMap_logs 0x1000 4 ⟨swappedOut,[],[]⟩
  obtain ⟨t,hlive,i,hi,ha⟩ := honly.1 0x2000 ((hlogs.written 0x2000).mpr (.inr ⟨hvisited,by decide⟩))
  rw [swappedOut_live hlive,entryAddress] at ha
  have hroot : (0x1000 : BitVec 64).toNat = 0x1000 := rfl
  have hdata : (0x2000 : BitVec 64).toNat = 0x2000 := rfl
  have hnat := congrArg BitVec.toNat ha
  rw [BitVec.toNat_add,hroot,hdata,BitVec.toNat_ofNat] at hnat
  omega

end HeineOS.Paging
