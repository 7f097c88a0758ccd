import HeineOS.Kernel.Threads

/-! Every step keeps the invariant. -/
namespace HeineOS.Kernel
open Lib Scheduler Protocol

namespace Own
variable (o : Own) {l : Lock}

theorem acquire_handler (l : Lock) : (o.acquire l).handler = o.handler := by cases l <;> rfl
theorem release_handler (l : Lock) : (o.release l).handler = o.handler := by cases l <;> rfl
theorem acquire_handoff (l : Lock) : (o.acquire l).handoff = o.handoff := by cases l <;> rfl
theorem release_handoff (l : Lock) : (o.release l).handoff = o.handoff := by cases l <;> rfl

theorem acquire_sched (h : l ≠ .scheduler) : (o.acquire l).sched = o.sched := by
  cases l <;> first | exact absurd rfl h | rfl

theorem release_sched (h : l ≠ .scheduler) : (o.release l).sched = o.sched := by
  cases l <;> first | exact absurd rfl h | rfl

end Own

namespace Machine.Inv
variable {m m' : Machine} {mode : Mode} {φ φ' : Phase} {f : Frame} {fs : List Frame} {g : Local}
  {x : Code Unit} {l : Lock} {o : Own}

/-- Nobody is at work on the scheduler while it is not locked. -/
theorem rest_of_unlocked (h : m.Inv mode φ f fs g) (hl : m.locked .scheduler = false) : φ = .rest := by
  have hs := h.sched
  rw [hl] at hs
  exact h.idle hs.not_live

theorem acquire (h : m.Inv mode φ f fs g) (hl : m.locked l = false) (ht : g.MayTake l)
    (hfollows : (protocol mode).Follows Done { g with own := f.own.acquire l } x) :
    ((m.setLock l true).setStack m.cur (⟨x,f.own.acquire l⟩ :: fs)).Inv mode φ ⟨x,f.own.acquire l⟩ fs
      { g with own := f.own.acquire l } := by
  have hself : (f.own.acquire l).holds l = true := by rw [Own.holds_acquire,beq_self_eq_true,Bool.true_or]
  refine h.relock ?_ (fun _ => hself) ?_ ?_ (Own.acquire_handler _ _) ?_ ?_ hfollows
  · intro l' hne
    rw [Own.holds_acquire,beq_eq_false_iff_ne.mpr hne,Bool.false_or]
  · intro hie htaken
    obtain ⟨_,hlocked,_⟩ := h.knows.taken hie l htaken
    rw [hl] at hlocked
    cases hlocked
  · rintro (rfl | rfl)
    · exact ⟨hself,fun _ => h.knows.ie false ht.2⟩
    · exact ⟨hself,fun _ => h.knows.ie false ht.2⟩
  · by_cases hs : l = .scheduler
    · subst hs
      have hsched := h.sched
      rw [hl] at hsched
      rw [setLock_self]
      exact hsched.lock rfl
    · rw [setLock_ne _ (Ne.symm hs)]
      exact h.sched.congr (Own.acquire_sched _ hs) (Own.acquire_handoff _ _)
  · by_cases hs : l = .scheduler
    · subst hs
      exact .inr ⟨ht.2.2,h.rest_of_unlocked hl⟩
    · exact .inl (Own.acquire_sched _ hs)

/-- A dropped guard of the scheduler is live and the lock is its own, or it is stale and the lock is
free. -/
theorem release (h : m.Inv mode φ f fs g) (ha : g.Allowed mode (.unlock l))
    (hfollows : (protocol mode).Follows Done { g with own := f.own.release l } x) :
    ((m.setLock l false).setStack m.cur (⟨x,f.own.release l⟩ :: fs)).Inv mode φ ⟨x,f.own.release l⟩ fs
      { g with own := f.own.release l } := by
  have hown := h.runs.own
  refine h.relock (fun l' hne => Own.holds_release_ne _ hne) (by rintro ⟨⟩) ?_ ?_ (Own.release_handler _ _)
    ?_ ?_ hfollows
  · intro hie htaken
    obtain ⟨hp,_,hholds⟩ := h.knows.taken hie l htaken
    have hm : l ∈ g.own.held := by
      cases l with
      | scheduler => cases hp
      | intVectors => cases hp
      | keyboard => cases hp
      | _ => exact ha
    rw [Own.holds_plain hp,List.contains_iff_mem.mpr hm] at hholds
    cases hholds
  · rintro (rfl | rfl)
    · exact ⟨rfl,by rintro ⟨⟩⟩
    · exact ⟨rfl,by rintro ⟨⟩⟩
  · by_cases hs : l = .scheduler
    · subst hs
      rw [setLock_self]
      refine ⟨by rintro ⟨⟩,hown ▸ ha.2.1,?_⟩
      cases hguard : f.own.sched with
      | absent => exact absurd (hown ▸ hguard) ha.1
      | live => exact (h.sched.of_live hguard).2
      | stale =>
        have hsched := h.sched
        rw [h.sched.of_stale hguard (hown ▸ ha.2.1)] at hsched
        exact hsched.2.2
    · rw [setLock_ne _ (Ne.symm hs)]
      exact h.sched.congr (Own.release_sched _ hs) (Own.release_handoff _ _)
  · by_cases hs : l = .scheduler
    · subst hs
      refine .inr ⟨ha.2.2,?_⟩
      cases hguard : f.own.sched with
      | absent => exact absurd (hown ▸ hguard) ha.1
      | live => exact (h.runs.live hguard).symm.trans ha.2.2
      | stale => exact h.rest_of_unlocked (h.sched.of_stale hguard (hown ▸ ha.2.1))
    · exact .inl (Own.release_sched _ hs)

theorem forceUnlock (h : m.Inv mode φ f fs g) (ha : g.Allowed mode (.forceUnlock l))
    (hfollows : (protocol mode).Follows Done { g with own := f.own.after (.forceUnlock l) () } x) :
    ((m.setLock l false).setStack m.cur (⟨x,f.own.after (.forceUnlock l) ()⟩ :: fs)).Inv mode φ
      ⟨x,f.own.after (.forceUnlock l) ()⟩ fs { g with own := f.own.after (.forceUnlock l) () } := by
  have hown := h.runs.own
  have htaken : l.plain = false → g.ie = some false → l ∉ g.facts.taken := by
    intro hp hie hm
    have := (h.knows.taken hie l hm).1
    rw [hp] at this
    cases this
  cases l with
  | scheduler =>
    refine h.relock ?_ (by rintro ⟨⟩) (htaken rfl) (by rintro (⟨⟨⟩⟩ | ⟨⟨⟩⟩)) rfl ?_ (.inl rfl) hfollows
    · intro l' _
      cases l' <;> rfl
    · rw [setLock_self]
      exact ⟨hown ▸ ha.2,rfl,(h.sched.of_handoff (hown ▸ ha.1)).2⟩
  | intVectors =>
    refine h.relock ?_ (by rintro ⟨⟩) (htaken rfl) (fun _ => ⟨rfl,by rintro ⟨⟩⟩) rfl ?_ (.inl rfl) hfollows
    · intro l' hne
      cases l' <;> first | exact absurd rfl hne | rfl
    · rw [setLock_ne _ (by rintro ⟨⟩)]
      exact h.sched.congr rfl rfl
  | _ => exact ha.elim

theorem setInt (h : m.Inv mode φ f fs g) {b : Bool} (ha : g.Allowed mode (.setInt b))
    (hfollows : (protocol mode).Follows Done { g with ie := some b, facts := .empty } x) :
    ({ m with intEnabled := b }.setStack m.cur (⟨x,f.own⟩ :: fs)).Inv mode φ ⟨x,f.own⟩ fs
      { g with ie := some b, facts := .empty } := by
  have hown := h.runs.own
  refine h.advance rfl h.stack (h.others rfl) ⟨hown,h.runs.thread,h.runs.live,h.runs.rest,hfollows⟩ ?_ ?_ rfl
    (.inl rfl) (h.sched.congr rfl rfl) (fun hl => .inl ⟨rfl,hl⟩) (h.owned.congr rfl rfl rfl fun _ => Iff.rfl)
    (fun l _ hl => .inr ⟨hl,id⟩) fun _ t ht _ => .inl ht
  · refine ⟨fun b' hb => (Option.some.inj hb),?_,?_,?_,?_,?_⟩
    · exact fun _ l hl => absurd hl List.not_mem_nil
    · exact fun _ l hl => absurd hl List.not_mem_nil
    · exact fun _ _ hn => by cases hn
    · exact fun _ hb => by cases hb
    · exact fun _ _ hn => by cases hn
  · refine ⟨h.sections.ints,h.sections.keyboard,?_⟩
    intro hb
    obtain rfl : b = true := hb
    have hi : f.own.holds .intVectors = false := beq_eq_false_iff_ne.mpr (hown ▸ ha.1)
    have hk : f.own.holds .keyboard = false := hown ▸ ha.2
    exact ⟨h.sections.ints.symm.trans hi,h.sections.keyboard.symm.trans hk⟩

/-- A step outside of the scheduler that leaves the locks alone. -/
theorem quiet (h : m.Inv mode φ f fs g) {k : Facts} (hl : m'.locked = m.locked)
    (hi : m'.intEnabled = m.intEnabled) (hs : m'.state = m.state) (hd : m'.dropped = m.dropped)
    (hc : m'.cur = m.cur) (hk : m'.stack = m.stack) (hknows : m'.Knows { g with facts := k })
    (hfollows : (protocol mode).Follows Done { g with facts := k } x) :
    (m'.setStack m.cur (⟨x,f.own⟩ :: fs)).Inv mode φ ⟨x,f.own⟩ fs { g with facts := k } := by
  refine h.advance hc ((congrFun hk _).trans h.stack) (h.others hk)
    ⟨h.runs.own,h.runs.thread,h.runs.live,h.runs.rest,hfollows⟩ hknows (h.sections.congr hl hi) rfl (.inl rfl) ?_
    (fun hl => .inl ⟨rfl,hl⟩) (h.owned.congr hs hd hc fun c => by rw [hk]) ?_ ?_
  · rw [hl]
    exact h.sched.congr rfl rfl
  · rw [hl]
    exact fun l _ hl => .inr ⟨hl,id⟩
  · rw [removed,hs,hd]
    exact fun _ t ht _ => .inl ht

/-- A step of the frame that holds the scheduler. -/
theorem atWork (h : m.Inv mode φ f fs g) (hlive : f.own.sched = .live) (howned : m'.Owned φ')
    (hl : m'.locked = m.locked) (hi : m'.intEnabled = m.intEnabled) (hv : m'.isrs = m.isrs)
    (hb : m'.keyboardBuffer = m.keyboardBuffer)
    (hn : m'.nic = m.nic) (hc : m'.cur = m.cur) (hstack : m'.stack m.cur = f :: fs)
    (hothers : ∀ c, c ≠ m.cur → Others mode m m' c)
    (hremoved : mode.clean = true → ∀ t ∈ m'.removed φ', m.cur ≠ .thread t →
      t ∈ m.removed φ ∨ bare (m'.stack (.thread t)) = true)
    (hfollows : (protocol mode).Follows Done { g with phase := φ' } x) :
    (m'.setStack m.cur (⟨x,f.own⟩ :: fs)).Inv mode φ' ⟨x,f.own⟩ fs { g with phase := φ' } := by
  have hknows : m'.Knows { g with phase := φ' } :=
    Knows.congr ⟨h.knows.ie,h.knows.free,h.knows.taken,h.knows.isrs,h.knows.buffer,h.knows.nic⟩ hl hi hv hb hn
  refine h.advance hc hstack hothers ⟨h.runs.own,h.runs.thread,fun _ => rfl,fun hne => absurd hlive hne,hfollows⟩
    hknows (h.sections.congr hl hi) rfl (.inr hlive) ?_ (fun hne => absurd hlive hne) howned ?_ hremoved
  · rw [hl]
    exact h.sched.congr rfl rfl
  · rw [hl]
    exact fun l _ hl => .inr ⟨hl,id⟩

/-- In particular one that changes nothing but the state of the scheduler. -/
theorem onState (h : m.Inv mode φ f fs g) (hlive : f.own.sched = .live) {s : SchedulerState} {d : List Thread}
    (howned : { m with state := s, dropped := d }.Owned φ')
    (hremoved : mode.clean = true → ∀ t ∈ { m with state := s, dropped := d }.removed φ', m.cur ≠ .thread t →
      t ∈ m.removed φ ∨ bare (m.stack (.thread t)) = true)
    (hfollows : (protocol mode).Follows Done { g with phase := φ' } x) :
    ({ m with state := s, dropped := d }.setStack m.cur (⟨x,f.own⟩ :: fs)).Inv mode φ' ⟨x,f.own⟩ fs
      { g with phase := φ' } :=
  h.atWork hlive howned rfl rfl rfl rfl rfl rfl h.stack (h.others rfl) hremoved hfollows

/-- A new thread is parked. -/
theorem parked_kickoff (mode : Mode) (t : Thread) :
    Parked mode (.thread t) [⟨kickoff t,.fresh⟩] ∧ Shape [⟨kickoff t,.fresh⟩] := by
  refine ⟨.inr ⟨_,_,rfl,rfl,by rintro ⟨⟩,rfl,?_,fun _ hf => absurd hf List.not_mem_nil⟩,rfl,trivial⟩
  exact ⟨⟨.fresh,true,.rest,none,.empty⟩,⟨rfl,rfl,by rintro ⟨⟩,fun _ => rfl,kickoff_follows⟩,rfl,by rintro ⟨⟩,rfl⟩

/-- A frame that is left holds neither the vectors nor the keyboard. -/
theorem unlocked_of_suspendable (h : m.Inv mode φ f fs g) (hs : g.Suspendable) :
    m.locked .intVectors = false ∧ m.locked .keyboard = false := by
  have hi : f.own.holds .intVectors = false := beq_eq_false_iff_ne.mpr (h.runs.own ▸ hs.1)
  have hk : f.own.holds .keyboard = false := h.runs.own ▸ hs.2
  exact ⟨h.sections.ints.symm.trans hi,h.sections.keyboard.symm.trans hk⟩

/-- The stack is switched: the old one is parked and the new one takes over the lock. -/
theorem switch (h : m.Inv mode φ f fs g) {n : Thread} (hlive : f.own.sched = .live)
    (hs : g.Suspendable) (hn : g.Leaves mode n)
    (hfollows : (protocol mode).Follows Done
      { g with own := { f.own with sched := .stale, handoff := true }, phase := .rest, ie := none } x) :
    ({ m with cur := .thread n }.setStack m.cur
      (⟨x,{ f.own with sched := .stale, handoff := true }⟩ :: fs)).Ok mode := by
  have hφ : (∃ c, φ = .left c n) ∨ (∃ c, φ = .gone c n) ∨ φ = .started n := by
    rw [← h.runs.live hlive]
    rcases hn with hn | ⟨hn | hn,_⟩
    · exact .inl hn
    · exact .inr (.inl hn)
    · exact .inr (.inr hn)
  obtain ⟨hcur,hne,howned⟩ := h.owned.switch hφ
  obtain ⟨f',fs',hstack,hhandoff,hguard,hsched,⟨g',hruns,hie,hsus⟩,hwaits⟩ :=
    (h.parked _ hcur.symm).resolve_left hne
  obtain ⟨hints,hkeyboard⟩ := h.unlocked_of_suspendable hs
  obtain ⟨hlocked,hrest⟩ := h.sched.of_live hlive
  refine ⟨.rest,f',fs',g',?_⟩
  constructor
  case stack => exact (setStack_ne _ hcur.symm _).trans hstack
  case runs => exact hruns
  case knows =>
    apply Knows.of_enabled
    · rw [hie]
      rintro ⟨⟩
    · rw [hie]
      rintro ⟨⟩
  case sections =>
    have hi : f'.own.holds .intVectors = false := beq_eq_false_iff_ne.mpr (hruns.own ▸ hsus.1)
    have hk : f'.own.holds .keyboard = false := hruns.own ▸ hsus.2
    exact ⟨hi.trans hints.symm,hk.trans hkeyboard.symm,fun _ => ⟨hints,hkeyboard⟩⟩
  case waits => exact hwaits
  case parked =>
    intro c hc
    by_cases heq : c = m.cur
    · rw [heq,setStack_self]
      refine .inr ⟨_,fs,rfl,rfl,by rintro ⟨⟩,hrest,⟨{ g with
        own := { f.own with sched := .stale, handoff := true }, phase := .rest, ie := none },?_,rfl,?_⟩,?_⟩
      · exact ⟨rfl,h.runs.thread,by rintro ⟨⟩,fun _ => rfl,hfollows⟩
      · exact ⟨h.runs.own ▸ hs.1,h.runs.own ▸ hs.2⟩
      · exact fun f'' hf'' => (h.waits f'' hf'').of_not_live (hrest.not_live f'' hf'') _
    · rw [setStack_ne _ heq]
      exact h.parked c heq
  case shape =>
    have hshape := h.shape m.cur
    rw [h.stack] at hshape
    exact forall_setStack (P := fun _ => Shape) hshape fun c _ => h.shape c
  case sched =>
    change Sched (m.locked .scheduler) _
    rw [hlocked]
    exact .inl ⟨.inr hhandoff,hsched⟩
  case idle => exact fun _ => rfl
  case owned =>
    exact howned.setStack (c := m.cur) (by rw [h.stack]; exact List.cons_ne_nil _ _) (List.cons_ne_nil _ _)
  case kept =>
    have hbare : mode.clean = true → (∀ c, φ ≠ .left c n) →
        bare (⟨x,{ f.own with sched := .stale, handoff := true }⟩ :: fs) = true := by
      intro hclean hleft
      have hno : ¬ ∃ c, g.phase = .left c n := by
        rw [h.runs.live hlive]
        exact fun ⟨c,hc⟩ => hleft c hc
      obtain ⟨_,hhandler,hheld⟩ := hn.resolve_left hno
      rw [h.runs.own] at hhandler hheld
      have hshape := h.shape m.cur
      rw [h.stack] at hshape
      have hfs : fs = [] := by
        cases fs with
        | nil => rfl
        | cons f' fs =>
          have hsh := hshape.1
          rw [hhandler] at hsh
          cases hsh
      rw [hfs,bare,List.all_cons,hheld hclean]
      rfl
    have hdoomed : φ.doomed = [] := by
      rcases hφ with ⟨c,rfl⟩ | ⟨c,rfl⟩ | rfl <;> rfl
    refine ⟨?_,?_,?_⟩
    · intro l hp hl
      obtain ⟨c,f₀,hf₀,hm⟩ := h.kept.held l hp hl
      refine ⟨c,?_⟩
      by_cases hc : c = m.cur
      · rw [hc,h.stack] at hf₀
        rw [hc,setStack_self]
        rcases List.mem_cons.mp hf₀ with rfl | hf₀
        · exact ⟨_,List.mem_cons_self,hm⟩
        · exact ⟨f₀,List.mem_cons_of_mem _ hf₀,hm⟩
      · rw [setStack_ne _ hc]
        exact ⟨f₀,hf₀,hm⟩
    · intro hclean _
      by_cases hb : m.cur = .boot
      · rw [← hb,setStack_self]
        refine hbare hclean ?_
        rintro c rfl
        cases hb.symm.trans h.owned.slot.2.1
      · rw [setStack_ne _ (Ne.symm hb)]
        exact h.kept.boot hclean hb
    · intro hclean t ht _
      change t ∈ m.state.terminated ++ m.dropped at ht
      by_cases hb : m.cur = .thread t
      · rw [← hb,setStack_self]
        refine hbare hclean ?_
        rintro c rfl
        obtain ⟨ha,hc,_,hready⟩ := h.owned.slot
        rw [← Ctx.thread.inj (hb.symm.trans hc)] at hready
        have hnodup : (n :: (m.state.ready ++ (m.state.terminated ++ m.dropped))).Nodup := by
          have hall := h.owned.nodup
          rw [threads,ha] at hall
          exact hall
        exact (List.nodup_append.mp (List.nodup_cons.mp hnodup).2).2.2 t hready t ht rfl
      · rw [setStack_ne _ (Ne.symm hb)]
        refine h.kept.removed hclean t ?_ hb
        rw [removed,hdoomed]
        exact ht

/-- An interrupt puts its handler on the stack. -/
theorem interrupt (h : m.Inv mode φ f fs g) {i : Interrupt} {k : Facts} (hie : m.intEnabled = true)
    (hknows : { m with intEnabled := false }.Knows ⟨.interrupt,m.cur.isThread,.rest,some false,k⟩)
    (hfollows : (protocol mode).Follows Done ⟨.interrupt,m.cur.isThread,.rest,some false,k⟩ (dispatchInterrupt i)) :
    ({ m with intEnabled := false }.setStack m.cur (⟨dispatchInterrupt i,.interrupt⟩ :: m.stack m.cur)).Ok mode := by
  obtain ⟨hints,hkeyboard⟩ := h.sections.disabled hie
  have hsus : g.Suspendable := by
    have hi := h.sections.ints
    have hk := h.sections.keyboard
    rw [hints] at hi
    rw [hkeyboard] at hk
    rw [← h.runs.own] at hi hk
    exact ⟨beq_eq_false_iff_ne.mp hi,hk⟩
  refine ⟨φ,⟨dispatchInterrupt i,.interrupt⟩,m.stack m.cur,⟨.interrupt,m.cur.isThread,.rest,some false,k⟩,?_⟩
  constructor
  case stack => exact setStack_self _ _ _
  case runs => exact ⟨rfl,rfl,by rintro ⟨⟩,fun _ => rfl,hfollows⟩
  case knows => exact hknows.congr rfl rfl rfl rfl rfl
  case sections => exact ⟨hints.symm,hkeyboard.symm,by rintro ⟨⟩⟩
  case waits =>
    rw [h.stack]
    intro f' hf'
    rcases List.mem_cons.mp hf' with rfl | hf'
    · refine ⟨g,h.runs,?_,hsus⟩
      intro hfalse
      rw [h.knows.ie false hfalse] at hie
      cases hie
    · exact h.waits f' hf'
  case parked =>
    intro c hc
    change c ≠ m.cur at hc
    rw [setStack_ne _ hc]
    exact h.parked c hc
  case shape =>
    refine forall_setStack (P := fun _ => Shape) ⟨?_,h.shape m.cur⟩ fun c _ => h.shape c
    rw [h.stack]
    rfl
  case sched =>
    change Sched (m.locked .scheduler) _
    have hsched := h.sched
    rw [h.stack]
    cases hl : m.locked .scheduler with
    | false =>
      rw [hl] at hsched
      exact ⟨by rintro ⟨⟩,rfl,hsched⟩
    | true =>
      rw [hl] at hsched
      exact .inr ⟨rfl,rfl,hsched⟩
  case idle =>
    intro hall
    refine h.idle ?_
    intro f' hf'
    exact hall f' (List.mem_cons_of_mem _ (h.stack ▸ hf'))
  case owned =>
    have howned : { m with intEnabled := false }.Owned φ := h.owned.congr rfl rfl rfl fun _ => Iff.rfl
    exact howned.setStack (c := m.cur) (by rw [h.stack]; exact List.cons_ne_nil _ _) (List.cons_ne_nil _ _)
  case kept =>
    apply h.kept.restack
    case hfs => exact fun f hf _ => List.mem_cons_of_mem _ hf
    all_goals rfl

/-- The end of a handler goes back to the frame below it. -/
theorem iret (h : m.Inv mode φ ⟨.pure (),o⟩ fs g) :
    ({ m with intEnabled := true }.setStack m.cur fs).Ok mode := by
  obtain ⟨hdone,_⟩ : Done g () := h.runs.follows
  have hown : o = .interrupt := h.runs.own.symm.trans hdone
  have hshape := h.shape m.cur
  rw [h.stack] at hshape
  obtain ⟨f',fs',rfl⟩ : ∃ f' fs', fs = f' :: fs' := by
    cases fs with
    | nil =>
      have hh := hshape.1
      rw [hown] at hh
      cases hh
    | cons f' fs' => exact ⟨f',fs',rfl⟩
  obtain ⟨g',hruns,hie,hsus⟩ := h.waits f' List.mem_cons_self
  obtain ⟨hints,hkeyboard⟩ := h.unlocked_of_suspendable (g := g) ⟨by rw [hdone]; rintro ⟨⟩,by rw [hdone]; rfl⟩
  have hsched : Sched (m.locked .scheduler) (f' :: fs') := by
    have hs := h.sched
    cases hl : m.locked .scheduler with
    | false =>
      rw [hl] at hs
      exact hs.2.2
    | true =>
      rw [hl,hown] at hs
      rcases hs with ⟨⟨⟨⟩⟩ | ⟨⟨⟩⟩,_⟩ | ⟨_,_,hs⟩
      exact hs
  refine ⟨φ,f',fs',g',?_⟩
  constructor
  case stack => exact setStack_self _ _ _
  case runs => exact hruns
  case knows => exact Knows.of_enabled hie fun _ => rfl
  case sections =>
    have hi : f'.own.holds .intVectors = false := beq_eq_false_iff_ne.mpr (hruns.own ▸ hsus.1)
    have hk : f'.own.holds .keyboard = false := hruns.own ▸ hsus.2
    exact ⟨hi.trans hints.symm,hk.trans hkeyboard.symm,fun _ => ⟨hints,hkeyboard⟩⟩
  case waits => exact fun f'' hf'' => h.waits f'' (List.mem_cons_of_mem _ hf'')
  case parked =>
    intro c hc
    change c ≠ m.cur at hc
    rw [setStack_ne _ hc]
    exact h.parked c hc
  case shape => exact forall_setStack (P := fun _ => Shape) hshape.2 fun c _ => h.shape c
  case sched => exact hsched
  case idle =>
    intro hall
    refine h.idle ?_
    intro f'' hf''
    rcases List.mem_cons.mp hf'' with rfl | hf''
    · rw [hown]
      rintro ⟨⟩
    · exact hall f'' hf''
  case owned =>
    have howned : { m with intEnabled := true }.Owned φ := h.owned.congr rfl rfl rfl fun _ => Iff.rfl
    exact howned.setStack (c := m.cur) (by rw [h.stack]; exact List.cons_ne_nil _ _) (List.cons_ne_nil _ _)
  case kept =>
    apply h.kept.restack
    case hfs =>
      intro f hf hheld
      rw [h.stack] at hf
      rcases List.mem_cons.mp hf with rfl | hf
      · rw [hown] at hheld
        exact absurd rfl hheld
      · exact hf
    all_goals rfl

/-- A call is replaced by the body of the procedure. -/
theorem call {p : Proc} {k : Code Unit} (h : m.Inv mode φ ⟨.call p k,o⟩ fs g) :
    (m.setStack m.cur (⟨p.body >>= fun _ => k,o⟩ :: fs)).Inv mode φ ⟨p.body >>= fun _ => k,o⟩ fs g :=
  h.quiet rfl rfl rfl rfl rfl rfl h.knows (Follows.unfold body_sound h.runs.follows)

end Machine.Inv

end HeineOS.Kernel
