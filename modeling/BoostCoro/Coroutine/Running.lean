import BoostCoro.Coroutine.Effects
/-!
# Exactly one running coroutine

The scheduling invariant is kept by every step, whatever the users of the API do.
The states move by shifts at four places; the invariant is what makes each of
them land on one of the four states.
-/

namespace BoostCoro.Coroutine

/-! ## Changes that do not switch context -/

namespace SchedInv

variable {s : Sched} {fs rest : List Frame} {f : Frame} {c : CoroId}

theorem running_ne (h : SchedInv s) (hlive : c ∈ s.pool) (hstat : s.stat c ≠ coroStatBusy) :
    s.running ≠ some c := fun hrun => hstat ((h.busy c hlive).mpr hrun)

theorem setStack (h : SchedInv s) (hst : Stacked s.running fs)
    (hne : s.running ≠ none → fs ≠ []) : SchedInv (s.setStack fs) where
  nodup := h.nodup
  current := h.current
  live := h.live
  stat := h.stat
  busy := h.busy
  stacked := by
    intro x
    by_cases hx : x = s.running
    · subst hx
      simpa [Sched.setStack] using hst
    · simpa [Sched.setStack, hx] using h.stacked x
  fresh := by
    intro c hc
    by_cases hrun : s.running = some c
    · have hbusy : s.stat c = coroStatBusy := (h.busy c hc).mpr hrun
      have hfs := hne (by rw [hrun]; exact Option.some_ne_none c)
      simp [Sched.setStack, hrun, hfs, hbusy, coroStatBusy, coroStatInit]
    · simpa [Sched.setStack, Ne.symm hrun] using h.fresh c hc
  parked := by
    intro c hc hwait
    have hrun := h.running_ne hc (by rw [show s.stat c = _ from hwait]; decide)
    simpa [Sched.setStack, Ne.symm hrun] using h.parked c hc hwait
  finished := by
    intro c hc hdone
    have hrun := h.running_ne hc (by rw [show s.stat c = _ from hdone]; decide)
    simpa [Sched.setStack, Ne.symm hrun] using h.finished c hc hdone
  mainParked := by
    intro hrun
    have hne : none ≠ s.running := Ne.symm hrun
    simpa [Sched.setStack, hne] using h.mainParked hrun
  preNe := h.preNe

/-- A call returns. -/
theorem pop (h : SchedInv s) (htop : s.stack s.running = f :: rest)
    (hf : ∀ c pc, f ≠ .execute c pc) : SchedInv (s.setStack rest) := by
  have hst : Stacked s.running (f :: rest) := htop ▸ h.stacked s.running
  refine h.setStack hst.tail fun hrun => ?_
  obtain ⟨c, hc⟩ := Option.ne_none_iff_exists'.mp hrun
  rw [hc] at hst
  exact hst.rest_ne_nil (hf c)

/-- A call goes on to its next place. -/
theorem replace (h : SchedInv s) {g : Frame} (htop : s.stack s.running = f :: rest)
    (hown : g.ownedBy s.running) (hcall : CalledBy s.running rest f → CalledBy s.running rest g) :
    SchedInv (s.setStack (g :: rest)) := by
  have hst : Stacked s.running (f :: rest) := htop ▸ h.stacked s.running
  exact h.setStack (.cons hown (hcall hst.calledBy) hst.tail) fun _ => List.cons_ne_nil _ _

/-- A call is made. -/
theorem push (h : SchedInv s) (hown : f.ownedBy s.running)
    (hcall : CalledBy s.running (s.stack s.running) f) : SchedInv (s.push f) :=
  h.setStack (.cons hown hcall (h.stacked s.running)) fun _ => List.cons_ne_nil _ _

theorem setChilds (h : SchedInv s) (owner : Ctx) (l : List CoroId) :
    SchedInv (s.setChilds owner l) := { h with }

theorem destroy (h : SchedInv s) (hdone : s.stat c = coroStatDone) : SchedInv (s.destroy c) where
  nodup := h.nodup.erase c
  current := h.current
  live := by
    intro d hd
    have hne : d ≠ c := by
      intro hdc
      have hbusy := (h.busy d (h.live d hd)).mpr hd
      rw [hdc, hdone] at hbusy
      exact absurd hbusy (by decide)
    exact (List.mem_erase_of_ne hne).mpr (h.live d hd)
  stat := fun d hd => h.stat d (List.mem_of_mem_erase hd)
  busy := fun d hd => h.busy d (List.mem_of_mem_erase hd)
  stacked := h.stacked
  fresh := fun d hd => h.fresh d (List.mem_of_mem_erase hd)
  parked := fun d hd => h.parked d (List.mem_of_mem_erase hd)
  finished := fun d hd => h.finished d (List.mem_of_mem_erase hd)
  mainParked := h.mainParked
  preNe := h.preNe

theorem construct (h : SchedInv s) (hc : c ∉ s.pool) : SchedInv (s.construct c) := by
  have hrun : s.running ≠ some c := fun hrun => hc (h.live c hrun)
  have hold : ∀ d ∈ s.pool, d ≠ c := fun d hd hdc => hc (hdc ▸ hd)
  constructor
  case nodup => exact List.nodup_cons.mpr ⟨hc, h.nodup⟩
  case current => exact h.current
  case live => exact fun d hd => List.mem_cons_of_mem _ (h.live d hd)
  case stat =>
    intro d hd
    rcases List.mem_cons.mp hd with rfl | hd
    · exact .inl (Function.update_self ..)
    · simpa [Sched.construct, hold d hd] using h.stat d hd
  case busy =>
    intro d hd
    rcases List.mem_cons.mp hd with rfl | hd
    · simp [Sched.construct, hrun, coroStatInit, coroStatBusy]
    · simpa [Sched.construct, hold d hd] using h.busy d hd
  case stacked =>
    intro x
    by_cases hx : x = some c
    · subst hx
      simp [Sched.construct, Stacked]
    · simpa [Sched.construct, hx] using h.stacked x
  case fresh =>
    intro d hd
    rcases List.mem_cons.mp hd with rfl | hd
    · simp [Sched.construct]
    · simpa [Sched.construct, hold d hd] using h.fresh d hd
  case parked =>
    intro d hd hwait
    rcases List.mem_cons.mp hd with rfl | hd
    · simp [Sched.construct, coroStatInit, coroStatWait] at hwait
    · have hne := hold d hd
      simp only [Sched.construct, Function.update_of_ne hne] at hwait
      simpa [Sched.construct, hne] using h.parked d hd hwait
  case finished =>
    intro d hd hdone
    rcases List.mem_cons.mp hd with rfl | hd
    · simp [Sched.construct, coroStatInit, coroStatDone] at hdone
    · have hne := hold d hd
      simp only [Sched.construct, Function.update_of_ne hne] at hdone
      simpa [Sched.construct, hne] using h.finished d hd hdone
  case mainParked =>
    intro hne
    simpa [Sched.construct] using h.mainParked hne
  case preNe =>
    intro d
    by_cases hd : d = c
    · simp [Sched.construct, hd]
    · simpa [Sched.construct, hd] using h.preNe d

/-! ## Switches of context -/

theorem switchTo_stat (s : Sched) (c d : CoroId) :
    (s.switchTo c).stat d =
      if s.running = some d then coroStatWait
      else if d = c then coroStatBusy else s.stat d := by
  cases hrun : s.running with
  | none => by_cases hd : d = c <;> simp [Sched.switchTo, hrun, hd]
  | some p =>
      by_cases hp : p = d
      · simp [Sched.switchTo, hrun, hp]
      · have hdp : d ≠ p := Ne.symm hp
        by_cases hd : d = c
        · subst hd
          simp [Sched.switchTo, hrun, hp, hdp]
        · simp [Sched.switchTo, hrun, hp, hdp, hd]

theorem switchTo_stack (s : Sched) (c : CoroId) (x : Ctx) :
    (s.switchTo c).stack x =
      if x = some c ∧ s.stack x = [] then [.execute c .entry] else s.stack x := by
  by_cases hx : x = some c
  · subst hx
    by_cases hnil : s.stack (some c) = [] <;> simp [Sched.switchTo, hnil]
  · by_cases hnil : s.stack (some c) = [] <;> simp [Sched.switchTo, hnil, hx]

/-- `transfer` from the running context, whose top frame waits for `c`. -/
theorem switchTo (h : SchedInv s) (hlive : c ∈ s.pool)
    (hstat : s.stat c = coroStatInit ∨ s.stat c = coroStatWait)
    (htop : s.stack s.running = .resume s.running c .back :: rest) :
    SchedInv (s.switchTo c) := by
  have hne : s.running ≠ some c := by
    refine h.running_ne hlive ?_
    rcases hstat with hs | hs <;> rw [hs] <;> decide
  constructor
  case nodup => exact h.nodup
  case current => rfl
  case live =>
    intro d hd
    obtain rfl : c = d := Option.some.inj hd
    exact hlive
  case stat =>
    intro d hd
    rw [switchTo_stat]
    split
    · exact .inr (.inl rfl)
    · split
      · exact .inr (.inr (.inl rfl))
      · exact h.stat d hd
  case busy =>
    intro d hd
    show _ ↔ some c = some d
    rw [switchTo_stat]
    split
    next hrun =>
      refine iff_of_false (by decide) fun hcd => hne ?_
      rw [hrun, hcd]
    next hrun =>
      split
      next hdc => simp [hdc]
      next hdc =>
        rw [h.busy d hd]
        exact iff_of_false hrun fun hcd => hdc (Option.some.inj hcd).symm
  case stacked =>
    intro x
    rw [switchTo_stack]
    split
    next hx =>
      rw [hx.1]
      exact ⟨rfl, trivial, trivial⟩
    next => exact h.stacked x
  case fresh =>
    intro d hd
    rw [switchTo_stat, switchTo_stack]
    by_cases hrun : s.running = some d
    · rw [← hrun, htop]
      simp [coroStatWait, coroStatInit]
    · rw [if_neg hrun]
      by_cases hdc : d = c
      · subst hdc
        by_cases hnil : s.stack (some d) = [] <;> simp [hnil, coroStatBusy, coroStatInit]
      · simpa [hdc] using h.fresh d hd
  case parked =>
    intro d hd hwait
    rw [switchTo_stat] at hwait
    rw [switchTo_stack]
    by_cases hrun : s.running = some d
    · rw [← hrun, htop]
      exact ⟨.resume s.running c .back, rest, by simp, rfl⟩
    · rw [if_neg hrun] at hwait
      by_cases hdc : d = c
      · simp [hdc, coroStatBusy, coroStatWait] at hwait
      · simpa [hdc] using h.parked d hd (by simpa [hdc] using hwait)
  case finished =>
    intro d hd hdone
    rw [switchTo_stat] at hdone
    rw [switchTo_stack]
    by_cases hrun : s.running = some d
    · simp [hrun, coroStatWait, coroStatDone] at hdone
    · rw [if_neg hrun] at hdone
      by_cases hdc : d = c
      · simp [hdc, coroStatBusy, coroStatDone] at hdone
      · simpa [hdc] using h.finished d hd (by simpa [hdc] using hdone)
  case mainParked =>
    intro _
    have hmain : (s.switchTo c).stack none = s.stack none := by
      rw [switchTo_stack]
      simp
    rw [hmain]
    by_cases hrun : s.running = none
    · rw [hrun] at htop
      exact ⟨c, rest, htop⟩
    · exact h.mainParked hrun
  case preNe =>
    intro d
    by_cases hd : d = c
    · simpa [Sched.switchTo, hd] using hne
    · simpa [Sched.switchTo, hd] using h.preNe d

theorem switchBack_stat (s : Sched) (c d : CoroId) :
    (s.switchBack c).stat d =
      if s.coroPre c = some d then coroStatBusy
      else if d = c ∧ s.stat c = coroStatBusy then coroStatWait else s.stat d := by
  have hleft : (if s.stat c = coroStatBusy then Function.update s.stat c coroStatWait
      else s.stat) d = if d = c ∧ s.stat c = coroStatBusy then coroStatWait else s.stat d := by
    by_cases hbusy : s.stat c = coroStatBusy
    · rw [if_pos hbusy, Function.update_apply]
      simp [hbusy]
    · rw [if_neg hbusy, if_neg fun h => hbusy h.2]
  cases hpre : s.coroPre c with
  | none => simp only [Sched.switchBack, hpre, hleft, reduceCtorEq, if_false]
  | some p =>
      simp only [Sched.switchBack, hpre, Option.some.injEq]
      rw [Function.update_apply, hleft]
      by_cases hdp : d = p
      · rw [if_pos hdp, if_pos hdp.symm]
      · rw [if_neg hdp, if_neg (Ne.symm hdp)]

/-- The running coroutine `c` gives control to its resumer; it is left in state
`v` with the stack `fs`. -/
theorem leave {s' : Sched} {v : StatT} (h : SchedInv s) (hrun : s.running = some c)
    (hready : ResumerReady s c) (hst : Stacked (some c) fs)
    (hleft : v = coroStatWait ∧ (∃ f rest, fs = f :: rest ∧ f.away = true) ∨
      v = coroStatDone ∧ fs = [.execute c .back])
    (hstat : ∀ d, s'.stat d =
      if s.coroPre c = some d then coroStatBusy else if d = c then v else s.stat d)
    (hs' : s' = { s with
      stat := s'.stat
      currentCoroutine := s.coroPre c
      running := s.coroPre c
      stack := Function.update s.stack (some c) fs }) : SchedInv s' := by
  have hlive := h.live c hrun
  have hne : s.coroPre c ≠ some c := h.preNe c
  have hv : v ≠ coroStatBusy ∧ v ≠ coroStatInit ∧ fs ≠ [] := by
    rcases hleft with ⟨rfl, f, rest, rfl, _⟩ | ⟨rfl, rfl⟩
    · exact ⟨by decide, by decide, List.cons_ne_nil _ _⟩
    · exact ⟨by decide, by decide, List.cons_ne_nil _ _⟩
  have hpool : s'.pool = s.pool := by rw [hs']
  have hrunning : s'.running = s.coroPre c := by rw [hs']
  have hstack : s'.stack = Function.update s.stack (some c) fs := by rw [hs']
  have hpre : s'.coroPre = s.coroPre := by rw [hs']
  constructor
  case nodup => rw [hpool]; exact h.nodup
  case current => rw [hs']
  case live =>
    intro d hd
    rw [hpool]
    exact (hready d (hrunning ▸ hd)).1
  case stat =>
    intro d hd
    rw [hstat]
    split
    · exact .inr (.inr (.inl rfl))
    · split
      · rcases hleft with ⟨rfl, _⟩ | ⟨rfl, _⟩
        · exact .inr (.inl rfl)
        · exact .inr (.inr (.inr rfl))
      · exact h.stat d (hpool ▸ hd)
  case busy =>
    intro d hd
    rw [hstat, hrunning]
    split
    next hd => simp [hd]
    next hpd =>
      refine iff_of_false ?_ hpd
      split
      · exact hv.1
      next hdc =>
        rw [h.busy d (hpool ▸ hd), hrun]
        exact fun hcd => hdc (Option.some.inj hcd).symm
  case stacked =>
    intro x
    rw [hstack]
    by_cases hx : x = some c
    · subst hx
      simpa using hst
    · simpa [hx] using h.stacked x
  case fresh =>
    intro d hd
    rw [hstat, hstack]
    by_cases hdc : d = c
    · subst hdc
      simp [hne, hv.2.1, hv.2.2]
    · by_cases hpd : s.coroPre c = some d
      · have hnil : s.stack (some d) ≠ [] := by
          intro hnil
          have hinit := (h.fresh d (hpool ▸ hd)).mpr hnil
          rw [(hready d hpd).2] at hinit
          exact absurd hinit (by decide)
        simp [hpd, hdc, hnil, coroStatBusy, coroStatInit]
      · simpa [hpd, hdc] using h.fresh d (hpool ▸ hd)
  case parked =>
    intro d hd hwait
    rw [hstat] at hwait
    rw [hstack]
    by_cases hdc : d = c
    · subst hdc
      rcases hleft with ⟨_, f, rest, rfl, haway⟩ | ⟨rfl, _⟩
      · exact ⟨f, rest, by simp, haway⟩
      · simp [hne, coroStatDone, coroStatWait] at hwait
    · by_cases hpd : s.coroPre c = some d
      · simp [hpd, coroStatBusy, coroStatWait] at hwait
      · simpa [hdc] using h.parked d (hpool ▸ hd) (by simpa [hpd, hdc] using hwait)
  case finished =>
    intro d hd hdone
    rw [hstat] at hdone
    rw [hstack]
    by_cases hdc : d = c
    · subst hdc
      rcases hleft with ⟨rfl, _⟩ | ⟨_, rfl⟩
      · simp [hne, coroStatDone, coroStatWait] at hdone
      · simp
    · by_cases hpd : s.coroPre c = some d
      · simp [hpd, coroStatBusy, coroStatDone] at hdone
      · simpa [hdc] using h.finished d (hpool ▸ hd) (by simpa [hpd, hdc] using hdone)
  case mainParked =>
    intro _
    rw [hstack]
    simpa using h.mainParked (by rw [hrun]; exact Option.some_ne_none c)
  case preNe =>
    intro d
    rw [hpre]
    exact h.preNe d

theorem yieldOut {q : CoroId} (h : SchedInv s) (hrun : s.running = some q)
    (htop : s.stack s.running = .yield q .childs :: rest) (hready : ResumerReady s q) :
    SchedInv ((s.setStack (.yield q .back :: rest)).switchBack q) := by
  have hst : Stacked (some q) (.yield q .childs :: rest) := by
    have hst := h.stacked s.running
    rwa [htop, hrun] at hst
  have hbusy : s.stat q = coroStatBusy := (h.busy q (h.live q hrun)).mpr hrun
  have hback : Stacked (some q) (.yield q .back :: rest) :=
    .cons rfl hst.calledBy.yield hst.tail
  refine h.leave hrun hready hback (.inl ⟨rfl, .yield q .back, rest, rfl, rfl⟩) (fun d => ?_) ?_
  · rw [switchBack_stat]
    simp [Sched.setStack, hbusy]
  · simp [Sched.switchBack, Sched.setStack, hrun]

theorem finish (h : SchedInv s) (hrun : s.running = some c)
    (hready : ResumerReady (s.setStat c coroStatDone) c) :
    SchedInv (((s.setStat c coroStatDone).setStack [.execute c .back]).switchBack c) := by
  have hready' : ResumerReady s c := by
    intro p hp
    obtain ⟨hlive, hwait⟩ := hready p hp
    have hpc : p ≠ c := fun hpc => h.preNe c (hpc ▸ hp)
    exact ⟨hlive, by simpa [Sched.setStat, hpc] using hwait⟩
  have hst : Stacked (some c) [.execute c .back] := ⟨rfl, trivial, trivial⟩
  refine h.leave hrun hready' hst (.inr ⟨rfl, rfl⟩) (fun d => ?_) ?_
  · rw [switchBack_stat]
    have hdone : coroStatDone ≠ coroStatBusy := by decide
    simp [Sched.setStack, Sched.setStat, hdone, Function.update_apply]
  · simp [Sched.switchBack, Sched.setStack, Sched.setStat, hrun]

end SchedInv

/-! ## Every step keeps the invariant -/

variable {s s' : State} {evs : List Obs} {c : CoroId} {a : Act}

/-- User code runs in main outside the API or in the function of a coroutine. -/
theorem SchedInv.userCode (hinv : SchedInv s.toSched) (huser : s.inUserCode = true) :
    s.running = none ∧ s.stack s.running = [] ∨
      ∃ c, s.running = some c ∧ s.stack s.running = [.execute c .body] := by
  have hst := hinv.stacked s.running
  unfold State.inUserCode at huser
  split at huser
  next hrun htop => exact .inl ⟨hrun, htop⟩
  next c d rest hrun htop =>
    rw [htop] at hst
    obtain rfl := hst.execute_bottom
    obtain rfl : c = d := Option.some.inj (hrun.symm.trans hst.owned)
    exact .inr ⟨c, hrun, htop⟩
  next => cases huser

/-- A call that both main and coroutines can make. -/
theorem SchedInv.calledByUser (hinv : SchedInv s.toSched) (huser : s.inUserCode = true)
    {f : Frame} (hmain : f.bottom none) (hcoro : ∀ c, Frame.mayCall (.execute c .body) f) :
    CalledBy s.running (s.stack s.running) f := by
  rcases hinv.userCode huser with ⟨hrun, htop⟩ | ⟨c, _, htop⟩
  · rw [htop, hrun]
    exact hmain
  · rw [htop]
    exact hcoro c

/-- A call that coroutines make. -/
theorem SchedInv.calledByCoro (hinv : SchedInv s.toSched) (huser : s.inUserCode = true)
    {f : Frame} {q : CoroId} (hrun : s.running = some q)
    (hcoro : ∀ c, Frame.mayCall (.execute c .body) f) :
    CalledBy s.running (s.stack s.running) f := by
  rcases hinv.userCode huser with ⟨hnone, _⟩ | ⟨c, _, htop⟩
  · rw [hnone] at hrun
    cases hrun
  · rw [htop]
    exact hcoro c

@[simp] theorem dropChld_toSched (s : State) (cur : Ctx) :
    (s.dropChld cur).toSched = s.toSched := by
  unfold State.dropChld
  split <;> rfl

/-- A call of `resume_childs` changes only the stack of the caller. -/
theorem EnterPass.frame {coro : Option CoroId} (hpass : EnterPass s coro s' evs) :
    s'.toSched = { s.toSched with stack := s'.stack } := by
  cases hpass with
  | skip => rfl
  | @enter cur _ _ =>
      simp only [State.push, Sched.push, Sched.setStack, dropChld_toSched]

/-- It reports the pass that begins, if any. -/
theorem EnterPass.only {coro : Option CoroId} {o : Obs} (hpass : EnterPass s coro s' evs)
    (ho : ∀ cur, o ≠ .passBegin cur) : o ∉ evs := by
  cases hpass with
  | skip => exact List.not_mem_nil
  | enter => exact fun h => ho _ (List.mem_singleton.mp h)

theorem SchedInv.enterPass {coro : Option CoroId} (hinv : SchedInv s.toSched)
    (hcall : ∀ n, CalledBy s.running (s.stack s.running)
      (.resumeChilds s.running (coro.or s.running) n none))
    (hpass : EnterPass s coro s' evs) : SchedInv s'.toSched := by
  cases hpass with
  | skip => exact hinv
  | enter hcur _ =>
      subst hcur
      show SchedInv (Sched.push (s.dropChld _).toSched _)
      rw [dropChld_toSched]
      exact hinv.push rfl (hcall _)

/-- The `yield` of the running coroutine and the pass it starts with. -/
theorem SchedInv.enterYield {q : CoroId} (hinv : SchedInv s.toSched) (hrun : s.running = some q)
    (hcall : CalledBy s.running (s.stack s.running) (.yield q .childs))
    (hpass : EnterPass (s.push (.yield q .childs)) none s' evs) : SchedInv s'.toSched := by
  have hinv' : SchedInv (s.push (.yield q .childs)).toSched := hinv.push hrun hcall
  refine hinv'.enterPass (fun n => ?_) hpass
  show CalledBy s.running (Function.update s.stack s.running _ s.running) _
  rw [Function.update_self]
  trivial

theorem SchedInv.step (hinv : SchedInv s.toSched) (heffect : Effect s a s' evs) :
    SchedInv s'.toSched := by
  cases heffect with
  | resumeIdle htop => exact hinv.pop htop nofun
  | resumeStraight htop => exact hinv.replace htop rfl .resume
  | resumePass htop _ _ _ hpass =>
      have hinv' := hinv.replace (g := .resume s.running _ .transfer) htop rfl .resume
      refine SchedInv.enterPass hinv' (fun n => ?_) hpass
      show CalledBy s.running (Function.update s.stack s.running _ s.running) _
      rw [Function.update_self]
      rfl
  | resumeWaiting htop => exact hinv.pop htop nofun
  | transfer htop hlive hstat _ =>
      have hinv' := hinv.replace (g := .resume s.running _ .back) htop rfl .resume
      exact hinv'.switchTo hlive hstat (Function.update_self ..)
  | resumeBack htop => exact hinv.pop htop nofun
  | passEnd htop => exact hinv.pop htop nofun
  | @passDestroy cur _ _ childs _ htop _ _ _ hdone =>
      exact ((hinv.setChilds cur childs).destroy hdone).replace htop rfl .resumeChilds
  | @passHold cur loop child childs rest htop =>
      have hinv' := (hinv.setChilds cur childs).replace htop
        (g := .resumeChilds s.running cur loop (some child)) rfl .resumeChilds
      have hpush := hinv'.push (f := .resume s.running child .entry) rfl (by
        show CalledBy s.running (Function.update s.stack s.running _ s.running) _
        rw [Function.update_self]
        rfl)
      rwa [Sched.push_setStack] at hpush
  | passDrop htop _ hdone => exact (hinv.destroy hdone).replace htop rfl .resumeChilds
  | passKeep htop => exact (hinv.setChilds _ _).replace htop rfl .resumeChilds
  | allEnd _ htop => exact hinv.pop htop nofun
  | allPass _ htop _ hpass =>
      refine hinv.enterPass (fun n => ?_) hpass
      rw [htop]
      trivial
  | yieldOut hrun htop hready => exact hinv.yieldOut hrun htop hready
  | yieldBack _ htop => exact hinv.pop htop nofun
  | executeEntry hrun htop => exact hinv.replace htop hrun .execute
  | executePass _ htop _ hpass =>
      refine hinv.enterPass (fun n => ?_) hpass
      rw [htop]
      trivial
  | finish hrun _ _ hready => exact hinv.finish hrun hready
  | @mgetSleep q _ _ _ hrun htop _ hpass =>
      have hinv' : SchedInv (s.startWait .msg q).toSched := hinv
      refine hinv'.enterYield hrun ?_ hpass
      show CalledBy s.running (s.stack s.running) _
      rw [htop]
      trivial
  | mgetTake _ htop => exact hinv.pop htop nofun
  | waitPersist htop => exact hinv.pop htop nofun
  | waitRelease htop => exact hinv.pop htop nofun
  | create _ hc => exact hinv.construct hc
  | child => exact { hinv with }
  | callResume huser => exact hinv.push rfl (hinv.calledByUser huser trivial fun _ => trivial)
  | callResumeAll huser hrun =>
      refine hinv.push hrun ?_
      rcases hinv.userCode huser with ⟨_, htop⟩ | ⟨c, hc, _⟩
      · rw [htop, hrun]
        trivial
      · rw [hrun] at hc
        cases hc
  | callPass huser hpass =>
      exact hinv.enterPass (fun n => hinv.calledByUser huser trivial fun _ => trivial) hpass
  | callYield huser hrun hpass =>
      exact hinv.enterYield hrun (hinv.calledByCoro huser hrun fun _ => trivial) hpass
  | bodyReturn hrun htop => exact hinv.replace htop hrun .execute
  | callMget huser hrun => exact hinv.push hrun (hinv.calledByCoro huser hrun fun _ => trivial)
  | waitMain huser => exact hinv.push trivial (hinv.calledByUser huser trivial fun _ => trivial)
  | @waitCoro _ c _ spec b r _ _ huser hrun _ _ hpass =>
      have hwait := hinv.push (f := .wait c spec b) trivial
        (hinv.calledByUser huser trivial fun _ => trivial)
      have hinv' : SchedInv
          ({ (s.startWait .evet c).push (.wait c spec b) with reactor := r } : State).toSched :=
        hwait
      refine hinv'.enterYield hrun ?_ hpass
      show CalledBy s.running (Function.update s.stack s.running _ s.running) _
      rw [Function.update_self]
      trivial
  | quiet _ hquiet => rwa [hquiet.sched]

/-! ## Runs -/

/-- The users may do anything. -/
def AnyUse (_ : State) (_ : Act) : Prop := True

instance (s : State) (a : Act) : Decidable (AnyUse s a) := inferInstanceAs (Decidable True)

/-- The states of a run that starts with no coroutines. -/
abbrev RunOf (ok : State → Act → Prop) (tr : List Obs) (s : State) : Prop :=
  Transition.Run State.step ok State.init tr s

theorem RunOf.schedInv {ok : State → Act → Prop} {tr : List Obs} (h : RunOf ok tr s) :
    SchedInv s.toSched :=
  Transition.Run.invariant (I := fun s => SchedInv s.toSched)
    (fun _ _ _ _ hinv _ hstep => hinv.step (hinv.effect hstep)) h schedInv_init

/-- The events since `c` was constructed last. -/
def lifetime (c : CoroId) (tr : List Obs) : List Obs :=
  Transition.since (fun o => o = .constructed c) tr

theorem lifetime_append {c : CoroId} (tr evs : List Obs) (h : .constructed c ∉ evs) :
    lifetime c (tr ++ evs) = lifetime c tr ++ evs := by
  refine Transition.since_append tr fun o ho => decide_eq_false ?_
  rintro rfl
  exact h ho

theorem lifetime_constructed {c : CoroId} (tr : List Obs) :
    lifetime c (tr ++ [.constructed c]) = [] :=
  Transition.since_concat tr (decide_eq_true rfl)

/-- Only `create` constructs, and it does nothing else. -/
theorem Effect.constructed (heffect : Effect s a s' evs) (hc : .constructed c ∈ evs) :
    evs = [.constructed c] ∧ s'.coroMessages c = [] ∧
      ∃ raw, a = .user (.create c raw) ∧ s'.flags .evet c = 0 ∧ s'.flags .msg c = raw ∧
        s'.stack (some c) = [] := by
  cases heffect with
  | resumePass _ _ _ _ hp => exact absurd hc (hp.only nofun)
  | allPass _ _ _ hp => exact absurd hc (hp.only nofun)
  | executePass _ _ _ hp => exact absurd hc (hp.only nofun)
  | mgetSleep _ _ _ hp => exact absurd hc (hp.only nofun)
  | create =>
      obtain rfl := Obs.constructed.inj (List.mem_singleton.mp hc)
      refine ⟨rfl, Function.update_self .., _, rfl, ?_, ?_, Function.update_self ..⟩
      · rw [State.setFlags_flags, if_neg (by simp), State.setFlags_flags, if_pos ⟨rfl, rfl⟩]
      · rw [State.setFlags_flags, if_pos ⟨rfl, rfl⟩]
  | callPass _ hp => exact absurd hc (hp.only nofun)
  | callYield _ _ hp => exact absurd hc (hp.only nofun)
  | waitCoro _ _ _ _ hp =>
      rcases List.mem_cons.mp hc with hc | hc
      · cases hc
      · exact absurd hc (hp.only nofun)
  | quiet _ hquiet => exact absurd (hquiet.events _ hc) Bool.false_ne_true
  | _ => simp at hc

theorem EnterPass.pool {coro : Option CoroId} (hpass : EnterPass s coro s' evs) :
    s'.pool = s.pool := by rw [hpass.frame]

/-- A coroutine that was not there before the step is constructed in it. -/
theorem Effect.pool (heffect : Effect s a s' evs) (hc : c ∈ s'.pool) :
    c ∈ s.pool ∨ .constructed c ∈ evs := by
  cases heffect with
  | resumePass _ _ _ _ hpass => exact .inl (hpass.pool ▸ hc)
  | passDestroy => exact .inl (List.mem_of_mem_erase hc)
  | passDrop => exact .inl (List.mem_of_mem_erase hc)
  | allPass _ _ _ hpass => exact .inl (hpass.pool ▸ hc)
  | executePass _ _ _ hpass => exact .inl (hpass.pool ▸ hc)
  | mgetSleep _ _ _ hpass => exact .inl (hpass.pool ▸ hc)
  | create =>
      rcases List.mem_cons.mp hc with rfl | hc
      · exact .inr List.mem_cons_self
      · exact .inl hc
  | callPass _ hpass => exact .inl (hpass.pool ▸ hc)
  | callYield _ _ hpass => exact .inl (hpass.pool ▸ hc)
  | waitCoro _ _ _ _ hpass => exact .inl (hpass.pool ▸ hc)
  | quiet _ hquiet => exact .inl (hquiet.sched ▸ hc)
  | _ => exact .inl hc

/-- A coroutine in DONE keeps that state until it is destroyed. -/
theorem Effect.done (heffect : Effect s a s' evs) (hinv : SchedInv s.toSched)
    (hlive : c ∈ s.pool) (hdone : s.stat c = coroStatDone) : s'.stat c = coroStatDone := by
  have hrun : s.running ≠ some c := hinv.running_ne hlive (by rw [hdone]; decide)
  have hpass : ∀ {t t' : State} {coro evs}, EnterPass t coro t' evs → t'.stat = t.stat := by
    intro t t' coro evs hpass
    rw [hpass.frame]
  -- who is resumed is in INIT or WAIT, and who gets control back in WAIT
  have hother : ∀ d, s.stat d = coroStatInit ∨ s.stat d = coroStatWait → c ≠ d := by
    rintro d hd rfl
    rw [hdone] at hd
    revert hd
    decide
  cases heffect with
  | resumePass _ _ _ _ hp => rwa [hpass hp]
  | transfer _ _ hstat _ =>
      show (Sched.switchTo _ _).stat c = _
      rw [SchedInv.switchTo_stat, if_neg (by exact hrun), if_neg (hother _ hstat)]
      exact hdone
  | allPass _ _ _ hp => rwa [hpass hp]
  | @yieldOut q _ hq _ hready =>
      have hcq : c ≠ q := fun h => hrun (h ▸ hq)
      have hpre : s.coroPre q ≠ some c := fun h => hother c (.inr (hready c h).2) rfl
      show (Sched.switchBack _ q).stat c = _
      rw [SchedInv.switchBack_stat, if_neg (by exact hpre), if_neg fun h => hcq h.1]
      exact hdone
  | executePass _ _ _ hp => rwa [hpass hp]
  | @finish q hq _ _ hready =>
      have hcq : c ≠ q := fun h => hrun (h ▸ hq)
      have hpre : s.coroPre q ≠ some c := by
        intro h
        have hwait := (hready c h).2
        have hstat : (s.toSched.setStat q coroStatDone).stat c = coroStatDone :=
          (Function.update_of_ne hcq ..).trans hdone
        rw [hstat] at hwait
        exact absurd hwait (by decide)
      show (Sched.switchBack _ q).stat c = _
      rw [SchedInv.switchBack_stat, if_neg (by exact hpre), if_neg fun h => hcq h.1]
      exact (Function.update_of_ne hcq ..).trans hdone
  | mgetSleep _ _ _ hp => rwa [hpass hp]
  | @create d _ _ hd =>
      have hne : c ≠ d := fun h => hd (h ▸ hlive)
      exact (Function.update_of_ne hne ..).trans hdone
  | callPass _ hp => rwa [hpass hp]
  | callYield _ _ hp => rwa [hpass hp]
  | waitCoro _ _ _ _ hp => rwa [hpass hp]
  | quiet _ hquiet => rwa [hquiet.sched]
  | _ => exact hdone

/-- Exactly one context runs, in every state of every run: `get()` names it, it is
the only coroutine in BUSY, the states stay the four, DONE is not left, and the
assertion at the end of a body holds. -/
theorem one_running {tr : List Obs} (h : RunOf AnyUse tr s) :
    (∀ c ∈ s.pool, s.stat c = coroStatInit ∨ s.stat c = coroStatWait ∨
      s.stat c = coroStatBusy ∨ s.stat c = coroStatDone) ∧
    (s.running = none → s.currentCoroutine = none ∧ ∀ c ∈ s.pool, s.stat c ≠ coroStatBusy) ∧
    (∀ c, s.running = some c → s.currentCoroutine = some c ∧ c ∈ s.pool ∧
      ∀ d ∈ s.pool, s.stat d = coroStatBusy ↔ d = c) ∧
    (∀ a s' evs, s.step a = some (.ok (s', evs)) → ∀ c ∈ s.pool,
      s.stat c = coroStatDone → s'.stat c = coroStatDone) ∧
    s.step (.user .return) ≠ some (.error .assertExecute) := by
  have hinv := h.schedInv
  have hcur : s.currentCoroutine = s.running := hinv.current
  refine ⟨hinv.stat, fun hrun => ?_, fun c hrun => ?_, fun a s' evs hstep c hlive hdone => ?_, ?_⟩
  · refine ⟨hcur.trans hrun, fun c hlive hbusy => ?_⟩
    have hc := (hinv.busy c hlive).mp hbusy
    rw [hrun] at hc
    cases hc
  · refine ⟨hcur.trans hrun, hinv.live c hrun, fun d hlive => ?_⟩
    rw [hinv.busy d hlive, hrun, Option.some.injEq, eq_comm]
  · exact (hinv.effect hstep).done hinv hlive hdone
  · intro hfault
    obtain ⟨huser, hcall⟩ := State.step_user_inv hfault
    rcases hinv.userCode huser with ⟨_, htop⟩ | ⟨c, hrun, htop⟩
    · rw [State.stepUser, State.bodyReturn, htop] at hcall
      cases hcall
    · rw [State.stepUser, State.bodyReturn, htop] at hcall
      simp only [hinv.running_busy hrun] at hcall
      cases hcall

/-- Main resumes coroutine 0, which resumes coroutine 1. -/
theorem one_running_nested : ∃ tr s, RunOf AnyUse tr s ∧ s.running = some 1 ∧
    s.stat 0 = coroStatWait ∧ (s.stat 1 = coroStatBusy ↔ 1 = 1) := by
  have hrun : (Transition.exec State.step AnyUse State.init
      [.user (.create 0 0), .user (.create 1 0), .user (.resume (some 0)), .lib, .lib, .lib,
        .user (.resume (some 1)), .lib, .lib, .lib]).isSome = true := by decide +kernel
  have h := Transition.run_get hrun
  have hlive := ((one_running h).2.2.1 1 rfl).2.1
  exact ⟨_, _, h, rfl, rfl, ((one_running h).2.2.1 1 rfl).2.2 1 hlive⟩

end BoostCoro.Coroutine
