import BoostCoro.Coroutine.TwinSwitches
/-!
# The steps of twins

Main and the coroutine that stands in for it take the same steps of a pass, and so do
all who run in it. A pass is the only step at which the flags come apart: the
coroutine clears the CHLD flags that main leaves set.
-/

namespace BoostCoro.Coroutine

open Fallible (Both)

variable {q c d p : CoroId} {aside : List Ctx} {stale : List CoroId} {since : CoroId → Prop}
  {s m n : State} {w : FlagWord} {cur : Ctx} {rest : List Frame} {loop : Nat}

/-! ## Passes -/

/-- `resume_childs` over the list of `d`, when it does not skip it. -/
theorem callResumeChilds_eq {coro : Option CoroId} (hcur : coro.or s.running = some d)
    (hself : s.running = coro → s.notified d = true) :
    s.callResumeChilds s.running coro =
      if d ∈ s.pool then .ok ((s.dropChld (some d)).enterPass s.running (some d))
      else .error .destroyed := by
  cases hrun : s.running with
  | none =>
      rw [hrun, Option.or_none] at hcur
      subst hcur
      simp only [State.callResumeChilds, State.checkOwner, State.dropChld, hrun]
      by_cases hlive : d ∈ s.pool
      · rw [Sched.checkLive, if_pos hlive, if_pos hlive]
        rfl
      · rw [Sched.checkLive, if_neg hlive, if_neg hlive]
        rfl
  | some p =>
      have hd : coro.getD p = d := by
        rw [hrun] at hcur
        cases coro with
        | none => exact Option.some.inj hcur
        | some e => exact Option.some.inj hcur
      have hskip : coro = some p → s.notified p = true := by
        rintro rfl
        have hpd : p = d := hd
        rw [hpd]
        exact hself hrun
      simp only [State.callResumeChilds]
      by_cases hlive : d ∈ s.pool
      · rw [if_pos hlive, callResumeChildsOf_eq coro hrun (by rwa [hd]) hskip, hd]
      · have hdead : s.eventDel (coro.getD p) coroEvetChld = .error .destroyed := by
          unfold State.eventDel State.delFlag
          rw [hd, Sched.checkLive, if_neg hlive, Fallible.error_bind]
        rw [if_neg hlive]
        unfold State.callResumeChildsOf
        rw [if_neg, hdead]
        · rfl
        · rintro ⟨hcoro, hevet, hmsg⟩
          have hyes := hskip hcoro
          rw [hcoro] at hevet hmsg
          rw [State.notified, Bool.or_eq_true] at hyes
          exact hyes.elim (fun h => Bool.false_ne_true (hevet.symm.trans h))
            fun h => Bool.false_ne_true (hmsg.symm.trans h)

theorem callResumeChilds_skip (hrun : s.running = some d) (hno : s.notified d = false) :
    s.callResumeChilds s.running (some d) = .ok (s, []) := by
  have hboth := Bool.or_eq_false_iff.mp hno
  rw [hrun]
  exact if_pos ⟨rfl, hboth.1, hboth.2⟩

namespace Twins

theorem push (h : Twins q aside stale since m n) {f : Frame}
    (hf : m.running = none → f.isPass = true) :
    Twins q aside stale since (m.push f) (n.push (f.standIn q)) := by
  have hset := h.setStack (f :: m.stack m.running) fun hrun => by
    rw [hrun]
    exact List.forall_mem_cons.mpr ⟨hf hrun, h.passing⟩
  have hpush : n.push (f.standIn q) =
      n.setStack (standInStack q m.running (f :: m.stack m.running)) := by
    unfold State.push Sched.push State.setStack
    rw [h.runner_stack]
    rfl
  rwa [hpush]

theorem mem_markStale {e : CoroId} (he : e ≠ d) :
    e ∈ s.markStale stale (.passBegin (some d)) ↔ e ∈ stale := by
  unfold State.markStale
  dsimp only
  split
  · simp [he]
  · simp [he]

/-- The words of the owner, when a pass over its list begins. -/
theorem wordsMatch_owner (h : Twins q aside stale since m n) (hlive : d ∈ m.pool)
    (w : FlagWord) :
    WordsMatch (m.markStale stale (.passBegin (some d))) d ((m.dropChld (some d)).flags w d)
      ((n.dropChld (some d)).flags w d) := by
  have hkeep : ∀ v : StatT, v &&& ~~~coroEvetChld &&& ~~~coroEvetChld = v &&& ~~~coroEvetChld :=
    fun v => by rw [BitVec.and_assoc, BitVec.and_self]
  have hwords := (h.flags d hlive w).rest
  cases hrun : m.running with
  | none =>
      have hrun' : n.running = some q := by rw [h.running, hrun, standIn_none]
      have hkept : m.dropChld (some d) = m := by simp only [State.dropChld, hrun]
      rw [hkept, dropChld_flags hrun']
      by_cases hyes : m.notified d = true
      · refine ⟨by rw [hkeep, hwords], fun hd => absurd ?_ hd⟩
        rw [State.markStale, if_pos ⟨hrun, hyes⟩]
        exact List.mem_cons_self
      · have hclear : hasBit (m.flags w d) coroEvetChld = false := by
          refine Bool.eq_false_iff.mpr fun hbit => hyes (notified_iff.mpr ⟨w, hbit⟩)
        rw [hwords, and_not_chld hclear]
        exact .refl ..
  | some r =>
      have hrun' : n.running = some r := by rw [h.running, hrun, standIn_some]
      rw [dropChld_flags hrun, dropChld_flags hrun', hwords]
      exact .refl ..

theorem dropChld_frame (s : State) (cur : Ctx) :
    s.dropChld cur = { s with flags := (s.dropChld cur).flags } := by
  unfold State.dropChld
  split <;> rfl

theorem dropChld_flags_ne (s : State) {e : CoroId} (he : e ≠ d) (w : FlagWord) :
    (s.dropChld (some d)).flags w e = s.flags w e := by
  cases hrun : s.running with
  | none => simp only [State.dropChld, hrun]
  | some p => simp only [State.dropChld, hrun, State.setFlags_flags, he, and_false, if_false]

theorem dropChld (h : Twins q aside stale since m n) :
    Twins q aside (m.markStale stale (.passBegin (some d))) since (m.dropChld (some d))
      (n.dropChld (some d)) := by
  have hwords : ∀ e ∈ m.pool, ∀ w, WordsMatch (m.markStale stale (.passBegin (some d))) e
      ((m.dropChld (some d)).flags w e) ((n.dropChld (some d)).flags w e) := by
    intro e he w
    by_cases hed : e = d
    · rw [hed] at he ⊢
      exact h.wordsMatch_owner he w
    · rw [dropChld_flags_ne m hed, dropChld_flags_ne n hed]
      exact ⟨(h.flags e he w).rest, fun hfresh => (h.flags e he w).same fun hmem =>
        hfresh ((mem_markStale hed).mpr hmem)⟩
  rw [dropChld_frame m, dropChld_frame n]
  exact { h with flags := hwords }

theorem enterPass (h : Twins q aside stale since m n) (hd : some d ∉ aside) :
    TwinResults q aside (m.markStale stale (.passBegin (some d))) since
      ((m.dropChld (some d)).enterPass m.running (some d))
      ((n.dropChld (some d)).enterPass n.running (some d)) := by
  have hdrop := h.dropChld (d := d)
  refine ⟨?_, rfl⟩
  show Twins _ _ _ _ ((m.dropChld _).push (.resumeChilds m.running (some d) _ none))
    ((n.dropChld _).push (.resumeChilds n.running (some d) _ none))
  rw [hdrop.childs _ hd, h.running]
  exact hdrop.push fun _ => rfl

/-- A pass over the list of `d` begins in both or in neither. The CHLD flags of a stale
coroutine must not be tested. -/
theorem callResumeChilds (h : Twins q aside stale since m n) (coro : Option CoroId)
    (hcur : coro.or m.running = some d) (hd : some d ∉ aside)
    (hself : m.running = coro → d ∈ m.pool ∧ d ∉ stale) :
    Both (TwinSteps q aside stale m) (m.callResumeChilds m.running coro)
      (n.callResumeChilds n.running coro) := by
  have hcur' : coro.or n.running = some d := by
    rw [h.running]
    cases coro with
    | none =>
        have hrun : m.running = some d := hcur
        rw [hrun]
        rfl
    | some e => exact hcur
  have hsame : n.running = coro → m.running = coro ∧ n.notified d = m.notified d := by
    intro hcoro
    have hrun : m.running = coro := by
      cases hrun : m.running with
      | none =>
          rw [h.running, hrun] at hcoro
          rw [hrun, ← hcoro] at hcur
          exact absurd h.self (by rwa [show some q = some d from hcur])
      | some r => rwa [h.running, hrun] at hcoro
    obtain ⟨hlive, hfresh⟩ := hself hrun
    exact ⟨hrun, h.notified hlive hfresh⟩
  by_cases hskip : m.running = coro ∧ m.notified d = false
  · obtain ⟨hcoro, hno⟩ := hskip
    obtain ⟨hlive, hfresh⟩ := hself hcoro
    have hrun : m.running = some d := by
      rw [hcoro, Option.or_self] at hcur
      rw [hcoro, hcur]
    have hrun' : n.running = some d := by rw [h.running, hrun, standIn_some]
    have hno' : n.notified d = false := (h.notified hlive hfresh).trans hno
    obtain rfl : coro = some d := hcoro.symm.trans hrun
    rw [callResumeChilds_skip hrun hno, callResumeChilds_skip hrun' hno']
    exact .ok ⟨since, h, rfl⟩
  · have hyes : m.running = coro → m.notified d = true := fun hcoro => by
      simpa using fun hno => hskip ⟨hcoro, hno⟩
    have hyes' : n.running = coro → n.notified d = true := fun hcoro => by
      rw [(hsame hcoro).2]
      exact hyes (hsame hcoro).1
    rw [callResumeChilds_eq hcur hyes, callResumeChilds_eq hcur' hyes']
    exact .ite (by rw [h.pool]) (fun _ => .ok ⟨since, h.enterPass hd⟩) fun _ => .error _

/-! ## The loop of a pass -/

theorem destroy (h : Twins q aside stale since m n) (hnodup : m.pool.Nodup)
    (hdone : m.stat c = coroStatDone) :
    Twins q aside (stale.filter (· ≠ c)) since (m.destroy c) (n.destroy c) :=
  { h with
    pool := congrArg (List.erase · c) h.pool
    flags := fun e he w => by
      obtain ⟨hec, he⟩ := hnodup.mem_erase_iff.mp he
      have hwords := h.flags e he w
      exact ⟨hwords.rest, fun hfresh => hwords.same fun hmem =>
        hfresh (List.mem_filter.mpr ⟨hmem, decide_eq_true hec⟩)⟩
    preSince := fun e f he hf => (h.preSince e f he hf).imp_right fun hdead =>
      hdead.imp_left fun hdead hmem => hdead (List.mem_of_mem_erase hmem)
    asleep := fun e he => by
      obtain ⟨hlive, hwait, hrest⟩ := h.asleep e he
      have hec : e ≠ c := by
        rintro rfl
        exact absurd (hwait.symm.trans hdone) (by decide)
      exact ⟨(List.mem_erase_of_ne hec).mpr hlive, hwait, hrest⟩ }

/-- The loop condition and the first half of the body. -/
theorem passTurn (h : Twins q aside stale since m n) (hm : SchedInv m.toSched)
    (hn : SchedInv n.toSched) (hrest : m.running = none → ∀ f ∈ rest, f.isPass = true)
    (hcur : cur ∉ aside) :
    Both (TwinSteps q aside stale m) (m.passTurn m.running cur loop rest)
      (n.passTurn n.running cur loop (standInStack q m.running rest)) := by
  cases loop with
  | zero => exact .ok ⟨since, h.setStack rest hrest, rfl⟩
  | succ loop =>
      refine (h.checkOwner cur).bind fun _ _ _ _ => ?_
      rw [h.childs _ hcur]
      cases m.coroChilds cur with
      | nil => exact .error _
      | cons child childs =>
          have hset := h.setChilds cur (l := childs) fun _ => rfl
          refine (hset.checkLive child).bind fun _ _ _ hlive => ?_
          refine .ite (hset.done_iff child) (fun hdone => .ok ⟨since, ?_, rfl⟩)
            fun _ => .ok ⟨since, ?_, rfl⟩
          · rw [h.running]
            exact (hset.destroy hm.nodup hdone).setStack
              (.resumeChilds m.running cur loop none :: rest)
              fun hrun => List.forall_mem_cons.mpr ⟨rfl, hrest hrun⟩
          · have hdispatch : (m.setChilds cur childs).dispatch m.running = m.running := hm.dispatch
            have hdispatch' : (n.setChilds cur childs).dispatch n.running = n.running :=
              hn.dispatch
            dsimp only
            rw [hdispatch, hdispatch', h.running]
            exact hset.setStack (.resume m.running child .entry ::
                .resumeChilds m.running cur loop (some child) :: rest)
              fun hrun => List.forall_mem_cons.mpr ⟨rfl, List.forall_mem_cons.mpr
                ⟨rfl, hrest hrun⟩⟩

/-- The second half of the body. -/
theorem passBack (h : Twins q aside stale since m n) (hm : SchedInv m.toSched)
    (hrest : m.running = none → ∀ f ∈ rest, f.isPass = true) :
    Both (TwinSteps q aside stale m) (m.passBack m.running cur loop c rest)
      (n.passBack n.running cur loop c (standInStack q m.running rest)) := by
  have hset := h.setStack (.resumeChilds m.running cur loop none :: rest)
    fun hrun => List.forall_mem_cons.mpr ⟨rfl, hrest hrun⟩
  refine (h.checkLive c).bind fun _ _ _ _ => ?_
  rw [h.running]
  refine .ite (hset.done_iff c) (fun hdone => ?_) fun _ => ?_
  · exact .ok ⟨since, hset.destroy hm.nodup hdone, rfl⟩
  · refine (hset.checkOwner cur).bind fun _ _ _ _ => .ok ⟨since, ?_, rfl⟩
    exact hset.setChilds cur fun hcur => congrArg (· ++ [c]) (hset.childs _ hcur)

/-! ## `resume` -/

theorem dispatch_setStack (s : State) (fs : List Frame) (x : Ctx) :
    (s.setStack fs).dispatch x = s.dispatch x := by
  cases x <;> rfl

theorem resumeEntry (h : Twins q aside stale since m n) (hm : SchedInv m.toSched)
    (hn : SchedInv n.toSched) (hrest : m.running = none → ∀ f ∈ rest, f.isPass = true)
    (hc : some c ∉ aside) (hfresh : c ∉ stale) :
    Both (TwinSteps q aside stale m) (m.resumeEntry m.running c rest)
      (n.resumeEntry n.running c (standInStack q m.running rest)) := by
  refine (h.checkLive c).bind fun _ _ _ hlive => ?_
  rw [h.stat c hc]
  refine .ite .rfl (fun _ => .ok ⟨since, h.setStack rest hrest, rfl⟩) fun _ => ?_
  refine .ite .rfl (fun _ => ?_) fun _ => .ok ⟨since, h.setStack rest hrest, rfl⟩
  have hset := h.setStack (.resume m.running c .transfer :: rest)
    fun hrun => List.forall_mem_cons.mpr ⟨rfl, hrest hrun⟩
  rw [h.running]
  refine .ite ?_ (fun _ => ?_) fun _ => .ok ⟨since, hset, rfl⟩
  · exact iff_of_eq (congrArg (· = true) (hset.notified hlive hfresh))
  · have hpass := hset.callResumeChilds (some c) rfl hc fun _ => ⟨hlive, hfresh⟩
    have hdispatch : n.dispatch (standIn q m.running) = standIn q m.running := by
      rw [← h.running]
      exact hn.dispatch
    rw [hset.running] at hpass
    rw [dispatch_setStack, dispatch_setStack, hm.dispatch, hdispatch]
    exact hpass

/-! ## The calls of coroutines -/

theorem ownPass (h : Twins q aside stale since m n) (hrun : m.running = some c) :
    Both (TwinSteps q aside stale m) (m.callResumeChildsOf c none)
      (n.callResumeChildsOf c none) := by
  have hc := h.apart c (h.runs c hrun)
  have hpass := h.callResumeChilds none (by rw [hrun]; rfl) hc fun hnone =>
    nomatch hrun.symm.trans hnone
  rwa [h.running, hrun] at hpass

theorem callYieldOf (h : Twins q aside stale since m n) (hrun : m.running = some c) :
    Both (TwinSteps q aside stale m) (m.callYieldOf c) (n.callYieldOf c) :=
  (h.push (f := .yield c .childs) fun hnone => nomatch hrun.symm.trans hnone).ownPass hrun

theorem mgetTurn (h : Twins q aside stale since m n) (hrun : m.running = some c) :
    Both (TwinSteps q aside stale m) (m.mgetTurn c rest)
      (n.mgetTurn c (standInStack q m.running rest)) := by
  have hnone : m.running = none → ∀ f ∈ rest, f.isPass = true := fun hnone =>
    nomatch hrun.symm.trans hnone
  refine (h.checkLive c).bind fun _ _ _ _ => ?_
  rw [h.coroMessages]
  cases m.coroMessages c with
  | nil =>
      refine (h.setFlag .msg c coroMesgWait).bind fun m' n' hset htwins => ?_
      have hrun' : m'.running = some c := by rwa [State.setFlag_frame hset]
      exact (htwins.callYieldOf hrun').mono fun _ _ hsteps => hsteps.of_running hrun' hrun
  | cons msg msgs => exact .ok ⟨since, { h.setStack rest hnone with coroMessages := rfl }, rfl⟩

theorem waitEnd (h : Twins q aside stale since m n) (hrun : m.running = some p) (c : CoroId)
    (spec : WaitSpec) (b : Block) (rest : List Frame) :
    Both (TwinSteps q aside stale m) (m.waitEnd c spec b rest)
      (n.waitEnd c spec b (standInStack q m.running rest)) := by
  have hset := h.setStack rest fun hnone => nomatch hrun.symm.trans hnone
  refine .ite .rfl (fun _ => .ok ⟨since, hset, rfl⟩) fun _ => ?_
  rw [h.reactor]
  refine (Both.refl _).bind fun r _ _ hr => .ok ⟨since, ?_, rfl⟩
  subst hr
  exact hset.setReactor r

/-! ## The end of a coroutine -/

/-- Who makes the pass sleeps in the other state while a coroutine runs. -/
theorem self_wait (h : Twins q aside stale since m n) (hn : SchedInv n.toSched)
    (hrun : m.running = some c) : n.stat q = coroStatWait := by
  obtain ⟨hlive, -, hinit, hdone⟩ := h.asleep q h.self
  have hlive : q ∈ n.pool := by rwa [h.pool]
  have hne : n.running ≠ some q := by
    rw [h.running, hrun, standIn_some]
    exact fun heq => h.self_ne (h.apart c (h.runs c hrun)) (Option.some.inj heq)
  rcases hn.stat q hlive with hq | hq | hq | hq
  · exact absurd hq hinit
  · exact hq
  · exact absurd ((hn.busy q hlive).mp hq) hne
  · exact absurd hq hdone

theorem yieldOut (h : Twins q aside stale since m n) (hm : SchedInv m.toSched)
    (hn : SchedInv n.toSched) (hrun : m.running = some c) (fs : List Frame) (hfs : fs ≠ []) :
    Both (TwinSteps q aside stale m) (m.handBack c fs)
      (n.handBack c (standInStack q (some c) fs)) :=
  h.handBack m hrun (hm.live c hrun) (hm.preNe c) (h.self_wait hn hrun)
    (fun x hx hwait => hm.stack_ne_nil hx (by rw [hwait]; decide))
    (fun x hx hwait => hn.stack_ne_nil hx (by rw [hwait]; decide)) hfs

theorem setDone (h : Twins q aside stale since m n) (hc : since c) :
    Twins q aside stale since { m with toSched := m.toSched.setStat c coroStatDone }
      { n with toSched := n.toSched.setStat c coroStatDone } :=
  { h with
    stat := fun d hd => by
      show Function.update n.stat c coroStatDone d = Function.update m.stat c coroStatDone d
      exact update_congr (fun _ => rfl) fun _ => h.stat d hd
    preSince := fun d e hd he => by
      show since e ∨ e ∉ m.pool ∨ Function.update m.stat c coroStatDone e = coroStatInit
      by_cases hec : e = c
      · exact .inl (hec ▸ hc)
      · rw [Function.update_of_ne hec]
        exact h.preSince d e hd he
    asleep := fun d hd => by
      have hdc : d ≠ c := fun heq => h.apart c hc (heq ▸ hd)
      show d ∈ m.pool ∧ Function.update m.stat c coroStatDone d = coroStatWait ∧
        Function.update n.stat c coroStatDone d ≠ coroStatInit ∧
          Function.update n.stat c coroStatDone d ≠ coroStatDone
      rw [Function.update_of_ne hdc, Function.update_of_ne hdc]
      exact h.asleep d hd }

theorem executeChilds (h : Twins q aside stale since m n) (hm : SchedInv m.toSched)
    (hn : SchedInv n.toSched) (hrun : m.running = some c) :
    Both (TwinSteps q aside stale m) (m.executeChilds c rest)
      (n.executeChilds c (standInStack q m.running rest)) := by
  have hc := h.runs c hrun
  refine (h.checkLive c).bind fun _ _ _ hlive => ?_
  rw [h.childs _ (h.apart c hc)]
  refine .ite .rfl (fun _ => ?_) fun _ => h.ownPass hrun
  have hdone := h.setDone hc
  have hparked : ∀ {t : State}, SchedInv t.toSched → ∀ x ∈ t.pool,
      (t.toSched.setStat c coroStatDone).stat x = coroStatWait → t.stack (some x) ≠ [] := by
    intro t ht x hx hwait
    have hxc : x ≠ c := by
      rintro rfl
      have hdone : Function.update t.stat x coroStatDone x = coroStatWait := hwait
      rw [Function.update_self] at hdone
      exact absurd hdone (by decide)
    have hwait : t.stat x = coroStatWait := (Function.update_of_ne hxc ..).symm.trans hwait
    exact ht.stack_ne_nil hx (by rw [hwait]; decide)
  have hself : (n.toSched.setStat c coroStatDone).stat q = coroStatWait :=
    (Function.update_of_ne (h.self_ne (h.apart c hc)).symm ..).trans (h.self_wait hn hrun)
  have hback := hdone.handBack m hrun (hm.live c hrun) (hm.preNe c) hself (hparked hm)
    (hparked hn) (List.cons_ne_nil (.execute c .back) rest)
  rw [hrun]
  refine hback.bind fun a b _ ⟨since', hresults⟩ => .ok ⟨since', hresults.state, ?_⟩
  exact congrArg (.finished c :: ·) hresults.events

end Twins

end BoostCoro.Coroutine
