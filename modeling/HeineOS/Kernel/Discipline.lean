import HeineOS.Kernel.Protocol

/-! All kernel code keeps to the protocol. -/
namespace HeineOS.Kernel
open Lib Scheduler Protocol
variable {mode : Mode}

/-- The stack is switched and switched back: the guard is stale then, and the interrupt flag is the
old one. -/
theorem threadSwitch_follows {Q : Local → Unit → Prop} {o : Own} {thread b : Bool} {φ : Phase} {k : Facts}
    {next : Thread} (hl : o.sched = .live) (hs : Local.Suspendable ⟨o,thread,φ,some b,k⟩)
    (hn : Local.Leaves mode ⟨o,thread,φ,some b,k⟩ next)
    (hQ : Q ⟨{ o with sched := .stale, handoff := false },thread,.rest,some b,.empty⟩ ()) :
    (protocol mode).Follows Q ⟨o,thread,φ,some b,k⟩ (threadSwitch next) := by
  refine perform_follows trivial fun flags hf => ?_
  obtain rfl : flags = b := hf b rfl
  refine perform_follows trivial fun _ _ => ?_
  refine perform_follows ⟨hl,hs,hn⟩ fun _ _ => perform_follows ⟨rfl,by rintro ⟨⟩⟩ fun _ _ => ?_
  refine last_follows ?_ fun _ _ => hQ
  cases flags with
  | false => trivial
  | true => exact hs

theorem yieldCpu_follows {Q : Local → Unit → Prop} {handler thread b : Bool} {ints : Guard} {held : List Lock}
    {k : Facts} (hi : ints ≠ .live) (hh : handler = true → b = false ∧ held = [])
    (hQ : ∀ k', Q ⟨⟨handler,.absent,ints,false,held,false⟩,thread,.rest,some b,k'⟩ ()) :
    (protocol mode).Follows Q ⟨⟨handler,.absent,ints,false,held,false⟩,thread,.rest,some b,k⟩ yieldCpu := by
  have hunlock : ∀ k', (protocol mode).Follows Q
      ⟨⟨handler,.live,ints,false,held,false⟩,thread,.rest,some b,k'⟩ (unlock .scheduler) :=
    fun k' => last_follows ⟨by rintro ⟨⟩,rfl,rfl⟩ fun _ _ => hQ k'
  refine perform_follows ⟨rfl,rfl,rfl⟩ fun taken _ => ?_
  cases taken with
  | false => exact hQ k
  | true =>
    refine perform_follows ⟨rfl,rfl⟩ fun initialized hr => ?_
    cases initialized with
    | false => exact hunlock k
    | true =>
      obtain rfl : true = thread := hr
      refine perform_follows trivial fun allocatorLocked _ => ?_
      cases allocatorLocked with
      | true => exact hunlock k
      | false =>
        have hfree : ∀ φ : Phase, Local.FindsFree mode ⟨⟨handler,.live,ints,false,held,false⟩,true,φ,some b,
            { k with free := .allocator :: k.free }⟩ .allocator := by
          intro φ _ hhandler
          obtain ⟨rfl,rfl⟩ := hh hhandler
          exact ⟨rfl,List.mem_cons_self,rfl⟩
        refine Follows.bind (perform_follows ⟨rfl,.inl ⟨rfl,rfl⟩⟩ fun next _ => ?_)
        cases next with
        | none => exact hunlock _
        | some next =>
          refine freeNode_follows (fun _ => hfree _) ?_
          refine perform_follows ⟨rfl,.inr ⟨next,rfl,rfl⟩⟩ fun current hc => ?_
          cases current with
          | none => cases hc
          | some current =>
            refine perform_follows ⟨current,rfl,rfl⟩ fun _ _ => ?_
            refine Follows.bind (Follows.bind (alloc_follows (hfree _) ?_))
            refine last_follows ⟨next,rfl,rfl⟩ fun _ _ => ?_
            refine Follows.bind (threadSwitch_follows rfl ⟨hi,rfl⟩ (.inl ⟨current,rfl⟩) ?_)
            exact last_follows ⟨by rintro ⟨⟩,rfl,rfl⟩ fun _ _ => hQ _

/-- Some packet of the batch makes the handler log a warning. -/
def Nic.warns (nic : Nic) : List Packet → Bool
  | [] => false
  | packet :: packets => (nic.receive packet).1 || (nic.receive packet).2.warns packets

/-- The handler of the interrupt finds every lock free that it waits for. -/
def Calm (k : Facts) : Interrupt → Prop
  | .pit => True
  | .keyboard .incomplete => Lock.keyboard ∈ k.free
  | .keyboard .event => Lock.keyboard ∈ k.free ∧ (k.buffer = true ∨ Lock.allocator ∈ k.free)
  | .keyboard .fault => Lock.keyboard ∈ k.free ∧ Lock.com1 ∈ k.free
  | .rtl8139 rx _ packets => rx = true → Lock.com1 ∈ k.free ∨ Lock.rxState ∈ k.taken ∨
      ∃ nic, k.nic = some nic ∧ nic.warns packets = false

/-- In a handler, where the vectors may have been force-unlocked. -/
def inHandler (thread : Bool) (ints : Guard) (keyboard : Bool) (held : List Lock) (k : Facts) : Local :=
  ⟨⟨true,.absent,ints,keyboard,held,false⟩,thread,.rest,some false,k⟩

section Handlers
variable {Q : Local → Unit → Prop} {thread : Bool} {k : Facts}

theorem timerTrigger_follows
    (hQ : ∀ ints k', ints ≠ .absent → Q (inHandler thread ints false [] k') ()) :
    (protocol mode).Follows Q (inHandler thread .live false [] k) timerTrigger := by
  refine perform_follows trivial fun time _ => ?_
  have hyield : (protocol mode).Follows Q (inHandler thread .live false [] k)
      (if time % 10 = 0 then do forceUnlock .intVectors; yieldCpu else pure ()) := by
    split
    · exact perform_follows rfl fun _ _ => yieldCpu_follows (by rintro ⟨⟩) (fun _ => ⟨rfl,rfl⟩)
        fun k' => hQ .stale k' (by rintro ⟨⟩)
    · exact hQ .live k (by rintro ⟨⟩)
  by_cases hspinner : time % 250 = 0
  · simp only [hspinner, if_true]
    refine perform_follows trivial fun taken _ => ?_
    cases taken with
    | false => exact hyield
    | true => exact perform_follows List.mem_cons_self fun _ _ => hyield
  · simp only [hspinner, if_false]
    exact hyield

theorem keyboardTrigger_follows {scan : Scan} (hc : mode.guarded = true → Calm k (.keyboard scan))
    (hQ : Q (inHandler thread .live false [] k) ()) :
    (protocol mode).Follows Q (inHandler thread .live false [] k) (keyboardTrigger scan) := by
  have hfree : mode.guarded = true → Lock.keyboard ∈ k.free := by
    intro hg
    cases scan with
    | incomplete => exact hc hg
    | event => exact (hc hg).1
    | fault => exact (hc hg).1
  have hunlock : (protocol mode).Follows Q (inHandler thread .live true [] k) (unlock .keyboard) :=
    last_follows rfl fun _ _ => hQ
  refine perform_follows ⟨⟨rfl,rfl⟩,fun hg _ => ⟨rfl,hfree hg,rfl⟩⟩ fun _ _ => ?_
  cases scan with
  | incomplete => exact hunlock
  | fault => exact panic_follows (fun hg _ => ⟨rfl,(hc hg).2,rfl⟩) fun _ => nofun
  | event =>
    refine Follows.bind (perform_follows trivial fun initialized hr => ?_)
    cases initialized with
    | true => exact hunlock
    | false =>
      refine alloc_follows (fun hg _ => ⟨rfl,?_,rfl⟩) hunlock
      rcases (hc hg).2 with hb | ha
      · cases hr rfl hb
      · exact ha

/-- Either COM1 is free for a warning, or the state of the NIC shows that there is none. -/
theorem receiveLoop_follows {packets : List Packet} {k : Facts}
    (hc : mode.guarded = true → Lock.com1 ∈ k.free ∨ ∃ nic, k.nic = some nic ∧ nic.warns packets = false)
    (hQ : ∀ k', Q (inHandler thread .live false [.rxState] k') ()) :
    (protocol mode).Follows Q (inHandler thread .live false [.rxState] k) (receiveLoop packets) := by
  induction packets generalizing k with
  | nil => exact hQ k
  | cons packet packets ih =>
    refine perform_follows trivial fun warns hr => ?_
    have hnext : (protocol mode).Follows Q
        (inHandler thread .live false [.rxState] (k.after (.receive packet) warns)) (receiveLoop packets) := by
      refine ih fun hg => ?_
      rcases hc hg with hf | ⟨nic,hn,hw⟩
      · exact .inl hf
      · refine .inr ⟨(nic.receive packet).2,by simp only [Facts.after, hn, Option.map_some],?_⟩
        rw [Nic.warns,Bool.or_eq_false_iff] at hw
        exact hw.2
    cases warns with
    | false => exact hnext
    | true =>
      refine Follows.bind (log_follows (fun hg _ => ⟨rfl,?_,rfl⟩) hnext)
      rcases hc hg with hf | ⟨nic,hn,hw⟩
      · exact hf
      · rw [Nic.warns,← hr rfl nic hn] at hw
        cases hw

theorem rtl8139Trigger_follows {rx tx : Bool} {packets : List Packet}
    (hc : mode.guarded = true → Calm k (.rtl8139 rx tx packets))
    (hQ : ∀ k', Q (inHandler thread .live false [] k') ()) :
    (protocol mode).Follows Q (inHandler thread .live false [] k) (rtl8139Trigger rx tx packets) := by
  have hflush : ∀ k', (protocol mode).Follows Q (inHandler thread .live false [] k')
      (if tx = true then flushTxQueue else pure ()) := by
    intro k'
    cases tx with
    | false => exact hQ k'
    | true =>
      refine perform_follows trivial fun taken _ => ?_
      cases taken with
      | false => exact hQ k'
      | true => exact last_follows List.mem_cons_self fun _ _ => hQ k'
  cases rx with
  | false => exact hflush k
  | true =>
    refine Follows.bind (perform_follows trivial fun taken hr => ?_)
    cases taken with
    | false => exact hflush k
    | true =>
      refine Follows.bind (receiveLoop_follows (fun hg => ?_) fun k' =>
        last_follows List.mem_cons_self fun _ _ => hflush k')
      rcases hc hg rfl with hf | ht | hn
      · exact .inl hf
      · cases hr rfl ht
      · exact .inr hn

/-- The dispatcher runs any handler to its end, or panics on a vector without one. -/
theorem dispatchInterrupt_follows {i : Interrupt}
    (hc : mode.guarded = true → Lock.intVectors ∈ k.free ∧
      ∃ isrs, k.isrs = some isrs ∧ if isrs i.vector = true then Calm k i else Lock.com1 ∈ k.free) :
    (protocol mode).Follows Done ⟨.interrupt,thread,.rest,some false,k⟩ (dispatchInterrupt i) := by
  have hunlock : ∀ ints k', ints ≠ .absent →
      (protocol mode).Follows Done (inHandler thread ints false [] k') (unlock .intVectors) :=
    fun ints k' hi => last_follows hi fun _ _ => ⟨rfl,rfl⟩
  refine perform_follows ⟨⟨rfl,rfl⟩,fun hg _ => ⟨rfl,(hc hg).1,rfl⟩⟩ fun _ _ => ?_
  refine perform_follows rfl fun registered hr => ?_
  cases registered with
  | false =>
    refine perform_follows (by rintro ⟨⟩) fun _ _ => panic_follows (fun hg _ => ⟨rfl,?_,rfl⟩) fun _ => nofun
    obtain ⟨_,isrs,hk,hfree⟩ := hc hg
    rw [← hr rfl isrs hk] at hfree
    exact hfree
  | true =>
    have hcalm : mode.guarded = true → Calm k i := by
      intro hg
      obtain ⟨_,isrs,hk,hcalm⟩ := hc hg
      rw [← hr rfl isrs hk] at hcalm
      exact hcalm
    refine Follows.bind ?_
    cases i with
    | pit => exact timerTrigger_follows hunlock
    | keyboard scan => exact keyboardTrigger_follows hcalm (hunlock .live k (by rintro ⟨⟩))
    | rtl8139 rx tx packets =>
      exact rtl8139Trigger_follows hcalm fun k' => hunlock .live k' (by rintro ⟨⟩)

end Handlers

/-- Between two actions of a thread or of the boot code. -/
def inUser (thread : Bool) (held : List Lock) (k : Facts) : Local :=
  ⟨.user held,thread,.rest,some true,k⟩

section Users
variable {thread : Bool} {held : List Lock} {k : Facts}

private theorem shared_plain {l : Lock} (hl : l.shared = true) : l.plain = true := by
  cases l with
  | scheduler => cases hl
  | intVectors => cases hl
  | keyboard => cases hl
  | _ => rfl

/-- Outside of handlers. -/
theorem println_follows {Q : Local → Unit → Prop} {g : Local} {chars : Nat} (hh : g.own.handler = false)
    (hQ : Q g ()) : (protocol mode).Follows Q g (println chars) := by
  refine perform_follows ⟨trivial,Local.findsFree_of_user hh _⟩ fun _ _ => Follows.bind ?_
  have hunlock : (protocol mode).Follows Q (g.after (.lock .terminal) ()) (unlock .terminal) :=
    last_follows List.mem_cons_self fun _ _ => hQ
  induction chars with
  | zero => exact hunlock
  | succ chars ih =>
    exact Follows.bind (section_follows rfl (Local.findsFree_of_user hh _) ih)

theorem dumpFreeList_follows {Q : Local → Unit → Prop} {lines : List Nat} (hQ : Q (inUser thread held k) ()) :
    (protocol mode).Follows Q (inUser thread held k) (dumpFreeList lines) := by
  refine perform_follows ⟨trivial,Local.findsFree_of_user rfl _⟩ fun _ _ => Follows.bind ?_
  have hunlock : (protocol mode).Follows Q ((inUser thread held k).after (.lock .allocator) ())
      (unlock .allocator) := last_follows List.mem_cons_self fun _ _ => hQ
  induction lines with
  | nil => exact hunlock
  | cons chars lines ih => exact Follows.bind (println_follows rfl ih)

theorem getActiveTid_follows {Q : Local → Nat → Prop} (hQ : ∀ id, Q (inUser thread held k) id) :
    (protocol mode).Follows Q (inUser thread held k) getActiveTid := by
  refine perform_follows ⟨⟨rfl,rfl,rfl⟩,Local.findsFree_of_user rfl _⟩ fun _ _ => ?_
  refine perform_follows (.inl ⟨rfl,rfl⟩) fun active ha => ?_
  cases active with
  | none => cases ha
  | some t => exact perform_follows ⟨by rintro ⟨⟩,rfl,rfl⟩ fun _ _ => hQ t.id

theorem schedule_follows {Q : Local → Unit → Prop} (hclean : mode.clean = true → held = []) :
    (protocol mode).Follows Q (inUser false held k) schedule := by
  refine perform_follows ⟨⟨rfl,rfl,rfl⟩,Local.findsFree_of_user rfl _⟩ fun _ _ => ?_
  refine perform_follows ⟨⟨rfl,rfl⟩,rfl⟩ fun _ _ => perform_follows (.inr ⟨rfl,rfl⟩) fun active ha => ?_
  cases active with
  | none => cases ha
  | some t =>
    exact perform_follows ⟨rfl,⟨by rintro ⟨⟩,rfl⟩,.inr ⟨.inr rfl,rfl,hclean⟩⟩
      fun _ _ => ⟨fun _ => nofun,fun r => r.elim⟩

theorem ready_follows {Q : Local → Unit → Prop} {t : Thread} (hQ : Q (inUser thread held k) ()) :
    (protocol mode).Follows Q (inUser thread held k) (ready t) := by
  refine perform_follows ⟨⟨rfl,rfl,rfl⟩,Local.findsFree_of_user rfl _⟩ fun _ _ => ?_
  refine Follows.bind (alloc_follows (Local.findsFree_of_user rfl _) (perform_follows ⟨rfl,rfl⟩ fun _ _ => ?_))
  exact last_follows ⟨by rintro ⟨⟩,rfl,rfl⟩ fun _ _ => hQ

theorem exit_follows {Q : Local → Unit → Prop} (hclean : mode.clean = true → held = [])
    (hQ : ∀ k', Q (inUser true held k') ()) : (protocol mode).Follows Q (inUser true held k) exit := by
  refine perform_follows ⟨⟨rfl,rfl,rfl⟩,Local.findsFree_of_user rfl _⟩ fun _ _ => ?_
  refine perform_follows ⟨rfl,.inl ⟨rfl,rfl⟩⟩ fun current hc => ?_
  cases current with
  | none => cases hc
  | some current =>
    refine Follows.bind (perform_follows ⟨rfl,.inr ⟨current,rfl,rfl⟩⟩ fun next hnext => ?_)
    refine freeNode_follows (fun _ => Local.findsFree_of_user rfl _) ?_
    cases next with
    | none => exact panic_follows (Local.findsFree_of_user rfl _) fun hm => nomatch hnext hm ⟨current,rfl⟩
    | some next =>
      refine perform_follows ⟨current,rfl,rfl⟩ fun _ _ => ?_
      refine Follows.bind (Follows.bind (alloc_follows (Local.findsFree_of_user rfl _)
        (last_follows ⟨next,rfl,rfl⟩ fun _ _ => ?_)))
      refine Follows.bind (threadSwitch_follows rfl ⟨by rintro ⟨⟩,rfl⟩ (.inr ⟨.inl ⟨current,rfl⟩,rfl,hclean⟩) ?_)
      exact last_follows ⟨by rintro ⟨⟩,rfl,rfl⟩ fun _ _ => hQ _

/-- Outside of handlers, with the scheduler held. -/
theorem dropBox_follows {Q : Local → Unit → Prop} {g : Local} {t : Thread} (hh : g.own.handler = false)
    (ha : g.At (.dropping t)) (hQ : Q { g with phase := .rest } ()) :
    (protocol mode).Follows Q g (dropBox t) := by
  refine perform_follows ha fun _ _ => Follows.bind (alloc_follows (Local.findsFree_of_user hh _) ?_)
  refine perform_follows trivial fun userStack _ => ?_
  cases userStack with
  | false => exact alloc_follows (Local.findsFree_of_user hh _) hQ
  | true =>
    exact Follows.bind (alloc_follows (Local.findsFree_of_user hh _)
      (alloc_follows (Local.findsFree_of_user hh _) hQ))

theorem kill_follows {Q : Local → Unit → Prop} {id : Nat} (hQ : Q (inUser thread held k) ()) :
    (protocol mode).Follows Q (inUser thread held k) (kill id) := by
  refine perform_follows ⟨⟨rfl,rfl,rfl⟩,Local.findsFree_of_user rfl _⟩ fun _ _ => ?_
  refine perform_follows ⟨rfl,rfl⟩ fun victim _ => ?_
  cases victim with
  | none => exact last_follows ⟨by rintro ⟨⟩,rfl,rfl⟩ fun _ _ => hQ
  | some victim =>
    refine Follows.bind (dropBox_follows rfl ⟨rfl,rfl⟩ ?_)
    refine Follows.bind (alloc_follows (Local.findsFree_of_user rfl _) ?_)
    exact last_follows ⟨by rintro ⟨⟩,rfl,rfl⟩ fun _ _ => hQ

theorem cleanupTerminatedThreads_follows {Q : Local → Unit → Prop} (hQ : Q (inUser thread held k) ()) :
    (protocol mode).Follows Q (inUser thread held k) cleanupTerminatedThreads := by
  refine perform_follows ⟨rfl,rfl,rfl⟩ fun taken _ => ?_
  cases taken with
  | false => exact hQ
  | true =>
    refine ⟨⟨rfl,rfl,rfl⟩,?_⟩
    rintro _ rfl
    exact last_follows ⟨by rintro ⟨⟩,rfl,rfl⟩ fun _ _ => hQ

theorem register_follows {Q : Local → Unit → Prop} {v : Vector} (hQ : ∀ k', Q (inUser thread held k') ()) :
    (protocol mode).Follows Q (inUser thread held k) (register v) := by
  refine perform_follows trivial fun ie hie => ?_
  obtain rfl : ie = true := hie true rfl
  refine perform_follows trivial fun _ _ => ?_
  refine perform_follows ⟨⟨rfl,rfl⟩,Local.findsFree_of_user rfl _⟩ fun _ _ => ?_
  have hunlock : (protocol mode).Follows Q
      ⟨{ Own.user held with ints := .live },thread,.rest,some false,.empty⟩
      (do unlock .intVectors; setInt true) :=
    perform_follows (by rintro ⟨⟩) fun _ _ => last_follows ⟨by rintro ⟨⟩,rfl⟩ fun _ _ => hQ _
  refine perform_follows rfl fun replaced _ => ?_
  cases replaced with
  | false => exact hunlock
  | true =>
    refine perform_follows trivial fun sized _ => ?_
    cases sized with
    | false => exact hunlock
    | true => exact Follows.bind (alloc_follows (Local.findsFree_of_user rfl _) hunlock)

theorem receivePacket_follows {Q : Local → Unit → Prop} (hQ : ∀ k', Q (inUser thread held k') ()) :
    (protocol mode).Follows Q (inUser thread held k) receivePacket := by
  refine perform_follows ⟨trivial,Local.findsFree_of_user rfl _⟩ fun _ _ => ?_
  exact perform_follows trivial fun _ _ => last_follows List.mem_cons_self fun _ _ => hQ { k with nic := none }

/-- Each action starts and ends between actions, with the guards that it returns. -/
theorem doAct_follows (hs : ∀ l ∈ held, l.shared = true) (a : Act)
    (hclean : mode.clean = true → (a = .exit ∧ thread = true) ∨ (a = .schedule ∧ thread = false) → held = []) :
    (protocol mode).Follows (fun g held' => (∀ l ∈ held', l.shared = true) ∧ ∃ k', g = inUser thread held' k')
      (inUser thread held k) (doAct thread held a) := by
  have hend : ∀ k', (∀ l ∈ held, l.shared = true) ∧ ∃ k'', inUser thread held k' = inUser thread held k'' :=
    fun k' => ⟨hs,k',rfl⟩
  have hacq : ∀ l : Lock, l.shared = true → (∀ l' ∈ l :: held, l'.shared = true) ∧
      ∃ k', (⟨(Own.user held).acquire l,thread,.rest,some true,k⟩ : Local) = inUser thread (l :: held) k' := by
    intro l hl
    refine ⟨?_,k,by rw [Own.acquire_plain (shared_plain hl)]; rfl⟩
    intro l' hl'
    rcases List.mem_cons.mp hl' with rfl | hl'
    · exact hl
    · exact hs l' hl'
  cases a with
  | acquire l =>
    rw [doAct]
    split
    · rename_i hl
      exact perform_follows ⟨Local.mayTake_plain (shared_plain hl),Local.findsFree_of_user rfl _⟩
        fun _ _ => hacq l hl
    · exact hend k
  | tryAcquire l =>
    rw [doAct]
    split
    · rename_i hl
      refine perform_follows (Local.mayTake_plain (shared_plain hl)) fun taken _ => ?_
      cases taken with
      | false => exact hend k
      | true => exact hacq l hl
    · exact hend k
  | release l =>
    rw [doAct]
    split
    · rename_i hm
      have hl := shared_plain (hs l hm)
      refine perform_follows (Local.mayUnlock_plain hl hm) fun _ _ => ?_
      refine ⟨fun l' hl' => hs l' (List.mem_of_mem_erase hl'),k,?_⟩
      simp only [Local.after, Own.after, Own.release_plain hl]
      rfl
    · exact hend k
  | alloc => exact Follows.bind (alloc_follows (Local.findsFree_of_user rfl _) (hend k))
  | dumpFreeList lines => exact Follows.bind (dumpFreeList_follows (hend k))
  | ready t => exact Follows.bind (ready_follows (hend k))
  | yieldCpu => exact Follows.bind (yieldCpu_follows (by rintro ⟨⟩) (by rintro ⟨⟩) hend)
  | exit =>
    cases thread with
    | false => exact hend k
    | true => exact Follows.bind (exit_follows (fun hc => hclean hc (.inl ⟨rfl,rfl⟩)) hend)
  | kill id => exact Follows.bind (kill_follows (hend k))
  | getActiveTid => exact Follows.bind (getActiveTid_follows fun _ => hend k)
  | cleanup => exact Follows.bind (cleanupTerminatedThreads_follows (hend k))
  | register v => exact Follows.bind (register_follows hend)
  | keyboardBuffer =>
    refine Follows.bind (perform_follows trivial fun initialized _ => ?_)
    cases initialized with
    | true => exact hend k
    | false => exact alloc_follows (Local.findsFree_of_user rfl _) (hend k)
  | receivePacket => exact Follows.bind (receivePacket_follows hend)
  | schedule =>
    cases thread with
    | true => exact hend k
    | false => exact Follows.bind (schedule_follows fun hc => hclean hc (.inr ⟨rfl,rfl⟩))

end Users

/-- The loops keep to the protocol. -/
theorem body_sound : (protocol mode).Sound Proc.body := by
  intro p g hp
  cases p with
  | user thread held =>
    obtain ⟨own,thread',phase,ie,k⟩ := g
    obtain ⟨hs,rfl,rfl,rfl,rfl⟩ := hp
    refine perform_follows trivial fun a ha => Follows.bind ((doAct_follows hs a ha).mono ?_)
    rintro _ held' ⟨hs',k',rfl⟩
    exact ⟨⟨hs',rfl,rfl,rfl,rfl⟩,fun _ hf => hf.elim⟩
  | cleanup =>
    obtain ⟨own,thread,phase,ie,k⟩ := g
    obtain ⟨hh,hl,rfl⟩ := hp
    refine Follows.bind (perform_follows ⟨hl,rfl⟩ fun t _ => ?_)
    refine freeNode_follows (fun _ => Local.findsFree_of_user hh _) ?_
    cases t with
    | none => rfl
    | some t =>
      refine Follows.bind (dropBox_follows hh ⟨hl,rfl⟩ ⟨⟨hh,hl,rfl⟩,?_⟩)
      rintro _ rfl
      rfl

/-- A new thread takes over the scheduler's lock from the thread that switched to it. -/
theorem kickoff_follows {Q : Local → Unit → Prop} {ie : Option Bool} {k : Facts} {t : Thread} :
    (protocol mode).Follows Q ⟨.fresh,true,.rest,ie,k⟩ (kickoff t) := by
  refine perform_follows ⟨rfl,by rintro ⟨⟩⟩ fun _ _ => perform_follows trivial fun _ _ => ?_
  refine perform_follows trivial fun _ _ => perform_follows ⟨by rintro ⟨⟩,rfl⟩ fun _ _ => ?_
  exact ⟨⟨fun _ hl => absurd hl List.not_mem_nil,rfl,rfl,rfl,rfl⟩,fun _ hf => hf.elim⟩

end HeineOS.Kernel
