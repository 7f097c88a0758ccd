import HeineOS.Device.ConfigAccess
import HeineOS.Lib.Updates

/-! Threads that write to the configuration space at the same time. `read32` and `write32` hold the lock of the ports;
the narrower writes take it twice, and another thread may write in between. -/
namespace HeineOS.Pci
open Lib

/-- A call of `write8`, `write16` or `write32`. -/
structure Call where
  width : Width
  bus : BitVec 8
  device : BitVec 8
  function : BitVec 8
  offset : BitVec 8
  value : BitVec (8 * width.bytes)

/-- `write32` puts its value; the others modify the dword that `read32` gives them. -/
def Width.change (offset : BitVec 8) : (w : Width) → BitVec (8 * w.bytes) → Change (BitVec 32)
  | byte,value => .modify fun data => insert8 data offset value
  | word,value => .modify fun data => insert16 data offset value
  | dword,value => .put value

namespace Call

def run (c : ConfigSpace) (call : Call) : ConfigSpace :=
  call.width.write c call.bus call.device call.function call.offset call.value

def address (call : Call) : BitVec 32 := calcConfigAddress call.bus call.device call.function call.offset

/-- The call sets the byte `k` of its dword. -/
def Sets (call : Call) (k : Nat) : Prop :=
  call.width.start call.offset ≤ k ∧ k < call.width.start call.offset + call.width.bytes

instance (call : Call) (k : Nat) : Decidable (call.Sets k) := inferInstanceAs (Decidable (_ ∧ _))

/-- What it sets the byte `k` to. -/
def byte (call : Call) (k : Nat) : BitVec 8 := lane call.value (k - call.width.start call.offset)

end Call

private theorem sameDword_refl (a : BitVec 32) : SameDword a a := ⟨rfl,rfl,rfl,rfl⟩

/-- The calls as the threads perform them: `read32`, then `write32`, or only the latter. -/
def registers : Cells ConfigSpace Call (BitVec 32) where
  load c call := read32 c call.bus call.device call.function call.offset
  store c call value := write32 c call.bus call.device call.function call.offset value
  change call := call.width.change call.offset call.value
  load_store c call value := by
    rw [write32,read32,dataPort_writeDataPort,if_pos (sameDword_refl _)]

section
variable {c : ConfigSpace} {call call' : Call}

theorem apply_change (call : Call) (data : BitVec 32) :
    (registers.change call).apply data = call.width.insert data call.offset call.value := by
  obtain ⟨width,_,_,_,_,_⟩ := call
  cases width <;> rfl

/-- In one step the calls do what the functions do. -/
theorem exec_eq_run (c : ConfigSpace) (call : Call) : registers.exec c call = call.run c := by
  rw [Cells.exec,apply_change,Call.run,write_eq]
  rfl

theorem execAll_eq_run (c : ConfigSpace) (calls : List Call) : registers.execAll c calls = calls.foldl Call.run c := by
  have hexec : registers.exec = Call.run := by
    funext c call
    exact exec_eq_run c call
  rw [Cells.execAll,hexec]

theorem lane_apply (call : Call) (data : BitVec 32) {k : Nat} (hk : k < 4) :
    lane ((registers.change call).apply data) k = if call.Sets k then call.byte k else lane data k := by
  rw [apply_change,lane_insert _ _ _ _ hk]
  rfl

/-- The first call changes no byte of the dword of the second one that the latter keeps. -/
def KeepsOthers (c : ConfigSpace) (call call' : Call) : Prop :=
  SameDword call.address call'.address →
    ∀ k < 4, call.Sets k → ¬ call'.Sets k → call.byte k = lane (dataPort c call.address) k

private theorem dataPort_congr {a b : BitVec 32} (h : SameDword a b) : dataPort c a = dataPort c b := by
  obtain ⟨hbus,hdevice,hfunction,hoffset⟩ := h
  rw [dataPort,dataPort,hbus,hdevice,hfunction,hoffset]

private theorem load_exec :
    registers.load (registers.exec c call) call' =
      if SameDword call.address call'.address then (registers.change call).apply (dataPort c call.address)
      else dataPort c call'.address := dataPort_writeDataPort

theorem spares_iff : registers.Spares c call call' ↔ KeepsOthers c call call' := by
  rw [Cells.Spares,load_exec]
  by_cases hsame : SameDword call.address call'.address
  · have hload : registers.load c call' = dataPort c call.address := (dataPort_congr hsame).symm
    rw [if_pos hsame,hload]
    constructor
    · intro h _ k hk hsets hkeeps
      have hlane := congrArg (lane · k) h
      simp only [lane_apply _ _ hk, if_neg hkeeps, if_pos hsets] at hlane
      exact hlane
    · intro h
      apply eq_of_lanes (n := 4)
      intro k hk
      simp only [lane_apply _ _ hk]
      by_cases hsets' : call'.Sets k
      · rw [if_pos hsets',if_pos hsets']
      · rw [if_neg hsets',if_neg hsets']
        by_cases hsets : call.Sets k
        · rw [if_pos hsets,h hsame k hk hsets hsets']
        · rw [if_neg hsets]
  · rw [if_neg hsame]
    refine iff_of_true rfl ?_
    intro h
    exact absurd h hsame

end

/-- The threads that write, each with its calls. -/
abbrev Writers (ι : Type) := Threads ι ConfigSpace Call (BitVec 32)

section
variable {ι : Type}

/-- If the next step of the thread is a write, it changes no byte that a thread has read with the same dword and is to
write back as it was. -/
def NoStaleByte (s : Writers ι) (t : ι) : Prop :=
  ∀ call, registers.Writes s t call → ∀ t' ≠ t, ∀ call', s.Waits t' call' → KeepsOthers s.memory call call'

/-- The configuration space is that of calls one after the other, each thread having performed its calls up to those it
has left. -/
def Serializable [DecidableEq ι] (c₀ : ConfigSpace) (calls : ι → List Call) (s : Writers ι) : Prop :=
  ∃ order : List (ι × Call), s.memory = (order.map Prod.snd).foldl Call.run c₀ ∧
    ∀ t, (order.filter (·.1 = t)).map Prod.snd ++ s.todo t = calls t

theorem stepSpares_iff {s : Writers ι} {t : ι} : registers.StepSpares s t ↔ NoStaleByte s t := by
  simp only [Cells.StepSpares, NoStaleByte, spares_iff]

/-- In every run whose steps leave no stale byte, the configuration space is at any time that of the calls done so far,
one after the other in the order in which they ended. After a step that leaves one, a write of the thread that has it
loses an update. -/
theorem writes_serializable [DecidableEq ι] {c₀ : ConfigSpace} {calls : ι → List Call} {s : Writers ι}
    (h : ((registers.system c₀ calls).restrict NoStaleByte).Reachable s) :
    Serializable c₀ calls s ∧ s.memory = (s.done.map Prod.snd).foldl Call.run c₀ ∧
      ∀ t s', registers.step s t = some s' → ¬ NoStaleByte s t →
        ∃ t' s'', registers.step s' t' = some s'' ∧ s''.memory ≠ (s''.done.map Prod.snd).foldl Call.run c₀ := by
  have hspares : ((registers.system c₀ calls).restrict registers.StepSpares).Reachable s :=
    h.of_restrict_of fun _ _ => stepSpares_iff.mpr
  have hordered := Cells.ordered_of_reachable hspares
  have hmemory := hordered.memory
  rw [execAll_eq_run] at hmemory
  refine ⟨⟨s.done,hmemory,hordered.order⟩,hmemory,?_⟩
  intro t s' hstep hnot
  rw [← stepSpares_iff] at hnot
  obtain ⟨t',s'',hstep',hlost⟩ := Cells.lost_of_not_spares hordered hnot hstep
  rw [execAll_eq_run] at hlost
  exact ⟨t',s'',hstep',hlost⟩

theorem noStaleByte_of_alone {s : Writers ι} {t : ι} (h : ∀ t' ≠ t, s.data t' = none) : NoStaleByte s t := by
  intro call _ t' ht call' hwaits
  obtain ⟨_,_,hdata⟩ := hwaits
  exact absurd (h t' ht) hdata

end

/-- The command register and the status register of a function, which share a dword, are set to one and to two. -/
def halves : Bool → List Call
  | false => [⟨.word,0,1,0,0x04,1⟩]
  | true => [⟨.word,0,1,0,0x06,2⟩]

/-- A configuration space of zeros. -/
def zeros : ConfigSpace := fun _ _ _ _ => 0

theorem writes_serializable_halves :
    ∃ s, ((registers.system zeros halves).restrict NoStaleByte).Reachable s ∧ (∀ t, s.todo t = []) ∧
      Serializable zeros halves s := by
  have hrun : ((registers.system zeros halves).restrict NoStaleByte).Run (.init zeros halves)
      [false,false,true,true] _ :=
    .cons ⟨noStaleByte_of_alone (by decide),rfl⟩ (.cons ⟨noStaleByte_of_alone (by decide),rfl⟩
      (.cons ⟨noStaleByte_of_alone (by decide),rfl⟩ (.cons ⟨noStaleByte_of_alone (by decide),rfl⟩ (.nil _))))
  have hreachable : ((registers.system zeros halves).restrict NoStaleByte).Reachable _ := ⟨_,_,rfl,hrun⟩
  exact ⟨_,hreachable,by decide,(writes_serializable hreachable).1⟩

private theorem order_cases {order : List (Bool × Call)} {a b : Call}
    (hfalse : (order.filter (·.1 = false)).map Prod.snd = [a])
    (htrue : (order.filter (·.1 = true)).map Prod.snd = [b]) :
    order.map Prod.snd = [a,b] ∨ order.map Prod.snd = [b,a] := by
  match order with
  | [] => simp at hfalse
  | [(false,x)] => simp at htrue
  | [(true,x)] => simp at hfalse
  | (false,x) :: (false,y) :: order => simp at hfalse
  | (true,x) :: (true,y) :: order => simp at htrue
  | [(false,x),(true,y)] => simp_all
  | [(true,x),(false,y)] => simp_all
  | (false,x) :: (true,y) :: (false,z) :: order => simp at hfalse
  | (false,x) :: (true,y) :: (true,z) :: order => simp at htrue
  | (true,x) :: (false,y) :: (false,z) :: order => simp at hfalse
  | (true,x) :: (false,y) :: (true,z) :: order => simp at htrue

/-- Both read before either writes: the first update is lost. -/
theorem write_lost : ∃ s, (registers.system zeros halves).Reachable s ∧ (∀ t, s.todo t = []) ∧
    ¬ Serializable zeros halves s := by
  have hrun : (registers.system zeros halves).Run (.init zeros halves) [false,true,false,true] _ :=
    .cons rfl (.cons rfl (.cons rfl (.cons rfl (.nil _))))
  refine ⟨_,⟨_,_,rfl,hrun⟩,by decide,?_⟩
  intro hserial
  obtain ⟨order,hmemory,horder⟩ := hserial
  have hfalse : (order.filter (·.1 = false)).map Prod.snd = [⟨.word,0,1,0,0x04,1⟩] :=
    (List.append_nil _).symm.trans (horder false)
  have htrue : (order.filter (·.1 = true)).map Prod.snd = [⟨.word,0,1,0,0x06,2⟩] :=
    (List.append_nil _).symm.trans (horder true)
  have hbyte := congrFun (congrFun (congrFun (congrFun hmemory 0) 1) 0) 4
  rcases order_cases hfalse htrue with h | h
  · rw [h] at hbyte
    revert hbyte
    decide +kernel
  · rw [h] at hbyte
    revert hbyte
    decide +kernel

end HeineOS.Pci
