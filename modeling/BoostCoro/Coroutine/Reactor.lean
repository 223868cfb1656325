import BoostCoro.Coroutine.Asleep
/-!
# What a step does to the reactor

A wait is in progress from the call that sets its event up to the step that cleans
up behind its `yield`. All that a step can do to the waits in progress and to
`coreactor_t` is one of five things.
-/

namespace BoostCoro.Coroutine

/-! ## Waits in progress -/

/-- A call of `set_io`, `set_timeout` or `set_signal` for `coro`; `event` is the
block in its local variable. -/
structure Wait where
  coro : CoroId
  spec : WaitSpec
  event : Block
  deriving DecidableEq, Repr

def Frame.wait? : Frame → Option Wait
  | .wait c spec b => some ⟨c, spec, b⟩
  | _ => none

/-- The wait in progress on a stack. -/
def waitOf (fs : List Frame) : Option Wait := fs.findSome? Frame.wait?

/-- The wait in progress in a live context. -/
def Sched.waitIn (s : Sched) : Ctx → Option Wait
  | none => waitOf (s.stack none)
  | some c => if c ∈ s.pool then waitOf (s.stack (some c)) else none

/-- The events of the reactor. -/
def Obs.reacts : Obs → Bool
  | .waitBegan _ _ _ => true
  | .waitEnded _ _ _ => true
  | .fired _ _ _ _ => true
  | .cancelled _ => true
  | _ => false

variable {s s' : State} {a : Act} {evs : List Obs} {c d q : CoroId} {w : Wait}

theorem waitOf_work (fs : List Frame) : waitOf (work fs) = waitOf fs := by
  unfold waitOf work
  induction fs with
  | nil => rfl
  | cons f fs ih =>
      cases f with
      | mget q => exact ih
      | wait c spec b => rfl
      | _ => exact ih

theorem waitOf_eq_of_work {fs gs : List Frame} (h : work fs = work gs) : waitOf fs = waitOf gs := by
  rw [← waitOf_work fs, h, waitOf_work]

theorem waitIn_of_ownerLive {t : Sched} {x : Ctx} (h : t.OwnerLive x) :
    t.waitIn x = waitOf (t.stack x) := by
  cases x with
  | none => rfl
  | some c => exact if_pos (h c rfl)

theorem SchedInv.ownerLive_running {t : Sched} (hinv : SchedInv t) : t.OwnerLive t.running :=
  fun d hd => hinv.live d hd

/-- In user code no wait is in progress. -/
theorem SchedInv.waitIn_user (hinv : SchedInv s.toSched) (huser : s.inUserCode = true) :
    s.waitIn s.running = none := by
  rw [waitIn_of_ownerLive hinv.ownerLive_running]
  rcases hinv.userCode huser with ⟨_, htop⟩ | ⟨c, _, htop⟩
  · rw [htop]
    rfl
  · rw [htop]
    rfl

/-- A wait is called by user code only. -/
theorem Stacked.waitOf_rest {x : Ctx} {spec : WaitSpec} {b : Block} {rest : List Frame}
    (h : Stacked x (.wait c spec b :: rest)) : waitOf rest = none := by
  cases rest with
  | nil => rfl
  | cons g rest =>
      have hcall : g.mayCall (.wait c spec b) := h.calledBy
      cases g with
      | execute d pc =>
          rw [h.tail.execute_bottom]
          rfl
      | resume _ _ pc => cases pc <;> exact absurd hcall id
      | resumeChilds _ _ _ child => cases child <;> exact absurd hcall id
      | yield _ pc => cases pc <;> exact absurd hcall id
      | _ => exact absurd hcall id

theorem SchedInv.waitIn_top (hinv : SchedInv s.toSched) {rest : List Frame}
    (htop : s.stack s.running = .wait w.coro w.spec w.event :: rest) :
    s.waitIn s.running = some w ∧ waitOf rest = none := by
  have hst : Stacked s.running (.wait w.coro w.spec w.event :: rest) :=
    htop ▸ hinv.stacked s.running
  refine ⟨?_, hst.waitOf_rest⟩
  rw [waitIn_of_ownerLive hinv.ownerLive_running, htop]
  rfl

/-- A coroutine that has ended is in no wait. -/
theorem SchedInv.waitIn_done {t : Sched} (hinv : SchedInv t) (hdone : t.stat c = coroStatDone) :
    t.waitIn (some c) = none := by
  unfold Sched.waitIn
  dsimp only
  split
  next hc =>
    rw [hinv.finished c hc hdone]
    rfl
  next => rfl

/-! ## The waits in one step -/

theorem Effect.waitIn_eq (hinv : SchedInv s.toSched) (heffect : Effect s a s' evs)
    (hevs : ∀ o ∈ evs, ∀ c spec b, o ≠ .waitBegan c spec b ∧ o ≠ .waitEnded c spec b) :
    s'.waitIn = s.waitIn := by
  have hkeep : ∀ x, s.OwnerLive x → waitOf (s'.stack x) = waitOf (s.stack x) := by
    intro x hx
    rcases heffect.work_cases with hsame | ⟨f, hstarts, hwork⟩ | ⟨f, rest, htop, hends, hwork⟩
    · exact waitOf_eq_of_work (hsame x hx)
    · rcases hstarts with ⟨q, rfl, _⟩ | ⟨c, spec, b, rfl, hbegan⟩
      · rw [← waitOf_work, hwork x hx]
        split
        · exact waitOf_work _
        · exact waitOf_work _
      · exact absurd rfl (hevs _ hbegan c spec b).1
    · rcases hends with ⟨q, m, rfl, _, _⟩ | ⟨c, spec, b, rfl, rfl⟩
      · rw [← waitOf_work, hwork x hx]
        split
        next hrun =>
          rw [hrun, htop]
          exact waitOf_work _
        · exact waitOf_work _
      · exact absurd rfl (hevs _ List.mem_cons_self c spec b).2
  funext x
  cases x with
  | none => exact hkeep none nofun
  | some c =>
      by_cases hc : c ∈ s.pool
      · by_cases hc' : c ∈ s'.pool
        · show (if _ then _ else _) = if _ then _ else _
          rw [if_pos hc, if_pos hc']
          exact hkeep (some c) fun d hd => Option.some.inj hd ▸ hc
        · have hdone : s.stat c = coroStatDone := by
            by_contra hne
            exact hc' (heffect.stays hc hne).1
          rw [hinv.waitIn_done hdone]
          exact if_neg hc'
      · have hold : s.waitIn (some c) = none := if_neg hc
        rw [hold]
        show (if _ then _ else _) = none
        split
        next hc' =>
          obtain ⟨_, _, _, _, _, _, hstack⟩ :=
            heffect.constructed ((heffect.pool hc').resolve_left hc)
          rw [hstack]
          rfl
        next => rfl

/-- What a step does to the waits in progress and to the reactor. -/
inductive Reacts (s : State) : Act → State → List Obs → Prop
  | still {a : Act} {s' : State} {evs : List Obs} (hwaits : s'.waitIn = s.waitIn)
      (hreactor : s'.reactor = s.reactor) (hevs : ∀ o ∈ evs, o.reacts = false) :
      Reacts s a s' evs
  | begins {u : User} {w : Wait} {s' : State} {evs : List Obs}
      (hstarts : StartsWait s u w.coro w.spec w.event s'.reactor) (hlive : w.coro ∈ s.pool)
      (hfree : s.waitIn s.running = none)
      (hwaits : s'.waitIn = Function.update s.waitIn s.running (some w))
      (hbegan : .waitBegan w.coro w.spec w.event ∈ evs)
      (hevs : ∀ o ∈ evs, o.reacts = true → o = .waitBegan w.coro w.spec w.event) :
      Reacts s (.user u) s' evs
  | ends {w : Wait} {rest : List Frame} {s' : State}
      (htop : s.stack s.running = .wait w.coro w.spec w.event :: rest)
      (hwait : s.waitIn s.running = some w)
      (hwaits : s'.waitIn = Function.update s.waitIn s.running none)
      (hreactor : w.spec.persists = true ∧ s'.reactor = s.reactor ∨
        w.spec.persists = false ∧ s.reactor.release w.coro w.event = .ok s'.reactor) :
      Reacts s .lib s' [.waitEnded w.coro w.spec w.event]
  | fires {b : Block} {watcher : Watcher} {revents : EventMask} {e : Event} {s' : State}
      (hevent : s.reactor.event b = some e) (hmay : e.mayFire revents watcher = true)
      (hwaits : s'.waitIn = s.waitIn)
      (hreactor : s'.reactor = { s.reactor with
        event := Function.update s.reactor.event b (some (e.fire watcher)) }) :
      Reacts s (.user (.fire b watcher revents)) s'
        (.fired b e.evFd revents e.evArg :: s.wokenBy .evet e.evArg)
  | cancels {coro : Option CoroId} {c : CoroId} {b : Block} {e : Event} {s' : State}
      (hcoro : coro.or s.running = some c)
      (htrigger : s.reactor.triggers c = some (some b)) (hevent : s.reactor.event b = some e)
      (hwaits : s'.waitIn = s.waitIn)
      (hreactor : s'.reactor = { s.reactor with
        triggers := Function.update s.reactor.triggers c (some none)
        event := Function.update s.reactor.event b (some e.del) }) :
      Reacts s (.user (.cancel coro)) s' (s.wokenBy .evet c ++ [.cancelled c])

theorem waitIn_setStack {t : Sched} (h : t.OwnerLive t.running) (fs : List Frame) :
    (t.setStack fs).waitIn = Function.update t.waitIn t.running (waitOf fs) := by
  funext x
  rw [Function.update_apply]
  split
  next hx =>
    subst hx
    rw [waitIn_of_ownerLive (by exact h), setStack_stack, if_pos rfl]
  next hx =>
    cases x with
    | none =>
        show waitOf ((t.setStack fs).stack none) = _
        rw [setStack_stack, if_neg hx]
        rfl
    | some c =>
        show (if c ∈ t.pool then waitOf ((t.setStack fs).stack (some c)) else none) = _
        rw [setStack_stack, if_neg hx]
        rfl

theorem EnterPass.waitIn {coro : Option CoroId} (hpass : EnterPass s coro s' evs) :
    s'.waitIn = s.waitIn := by
  funext x
  have hwork : waitOf (s'.stack x) = waitOf (s.stack x) := waitOf_eq_of_work (hpass.work_eq x)
  cases x with
  | none => exact hwork
  | some c =>
      show (if c ∈ s'.pool then _ else _) = if c ∈ s.pool then _ else _
      rw [hpass.pool, hwork]

theorem EnterPass.reactor {coro : Option CoroId} (hpass : EnterPass s coro s' evs) :
    s'.reactor = s.reactor := by
  cases hpass with
  | skip => rfl
  | @enter cur _ _ =>
      show (s.dropChld cur).reactor = s.reactor
      unfold State.dropChld
      split <;> rfl

theorem EnterPass.reacts {coro : Option CoroId} (hpass : EnterPass s coro s' evs) :
    ∀ o ∈ evs, o.reacts = false := by
  cases hpass with
  | skip => exact fun _ h => absurd h List.not_mem_nil
  | enter => simp [Obs.reacts]

theorem reacts_wokenBy {w : FlagWord} : ∀ o ∈ s.wokenBy w c, o.reacts = false := by
  unfold State.wokenBy
  split <;> simp [Obs.reacts]

theorem Effect.still (hinv : SchedInv s.toSched) (heffect : Effect s a s' evs)
    (hreactor : s'.reactor = s.reactor) (hevs : ∀ o ∈ evs, o.reacts = false) :
    Reacts s a s' evs := by
  refine .still (heffect.waitIn_eq hinv fun o ho c spec b => ⟨?_, ?_⟩) hreactor hevs
  · rintro rfl
    exact absurd (hevs _ ho) (by simp [Obs.reacts])
  · rintro rfl
    exact absurd (hevs _ ho) (by simp [Obs.reacts])

theorem SchedInv.reacts (hinv : SchedInv s.toSched) (heffect : Effect s a s' evs) :
    Reacts s a s' evs := by
  have hpass : ∀ {t coro}, EnterPass t coro s' evs → t.reactor = s.reactor →
      Reacts s a s' evs := by
    intro t coro hpass hreactor
    exact heffect.still hinv (hpass.reactor.trans hreactor) hpass.reacts
  have howner := hinv.ownerLive_running
  have hstep := heffect
  cases heffect with
  | resumePass _ _ _ _ hp => exact hpass hp rfl
  | allPass _ _ _ hp => exact hpass hp rfl
  | executePass _ _ _ hp => exact hpass hp rfl
  | mgetSleep _ _ _ hp => exact hpass hp rfl
  | callPass _ hp => exact hpass hp rfl
  | callYield _ _ hp => exact hpass hp rfl
  | @waitPersist c spec b rest htop hpersist =>
      obtain ⟨hwait, hrest⟩ := hinv.waitIn_top (w := ⟨c, spec, b⟩) htop
      refine .ends (w := ⟨c, spec, b⟩) htop hwait ?_ (.inl ⟨hpersist, rfl⟩)
      exact hrest ▸ waitIn_setStack howner rest
  | @waitRelease c spec b rest r htop hpersist hrelease =>
      obtain ⟨hwait, hrest⟩ := hinv.waitIn_top (w := ⟨c, spec, b⟩) htop
      refine .ends (w := ⟨c, spec, b⟩) htop hwait ?_ (.inr ⟨hpersist, hrelease⟩)
      exact hrest ▸ waitIn_setStack howner rest
  | @waitMain u c spec b r huser _ hstarts hlive =>
      refine .begins (w := ⟨c, spec, b⟩) hstarts hlive (hinv.waitIn_user huser) ?_
        List.mem_cons_self ?_
      · exact waitIn_setStack howner _
      · simp
  | @waitCoro u c q spec b r s' evs huser hrun hstarts hlive hp =>
      have hr : s'.reactor = r := hp.reactor
      refine .begins (w := ⟨c, spec, b⟩) (hr ▸ hstarts) hlive (hinv.waitIn_user huser) ?_
        List.mem_cons_self ?_
      · have hwait : ((s.startWait .evet c).push (.wait c spec b)).waitIn =
            Function.update s.waitIn s.running (some ⟨c, spec, b⟩) := waitIn_setStack howner _
        have hyield : (((s.startWait .evet c).push (.wait c spec b)).push
            (.yield q .childs)).waitIn = Function.update
              ((s.startWait .evet c).push (.wait c spec b)).waitIn s.running
              (some ⟨c, spec, b⟩) := by
          refine (waitIn_setStack (t := ((s.startWait .evet c).push (.wait c spec b)).toSched)
            howner _).trans (congrArg _ ?_)
          have htop : ((s.startWait .evet c).push (.wait c spec b)).stack s.running =
              .wait c spec b :: s.stack s.running := Function.update_self ..
          show waitOf (.yield q .childs ::
            ((s.startWait .evet c).push (.wait c spec b)).stack s.running) = _
          rw [htop]
          rfl
        rw [hp.waitIn]
        refine hyield.trans ?_
        rw [hwait, Function.update_idem]
      · intro o ho hreacts
        rcases List.mem_cons.mp ho with rfl | ho
        · rfl
        · rw [hp.reacts o ho] at hreacts
          cases hreacts
  | quiet huser hquiet =>
      have hsame : s'.waitIn = s.waitIn := by rw [hquiet.sched]
      cases hquiet with
      | idle => exact .still hsame rfl fun _ h => absurd h List.not_mem_nil
      | mput hput =>
          obtain ⟨_, _, hreactor, _, rfl⟩ := State.mput_ok hput
          refine .still hsame hreactor ?_
          simp only [List.forall_mem_append, List.forall_mem_singleton]
          exact ⟨reacts_wokenBy, rfl⟩
      | mbroadcast hcast =>
          obtain ⟨_, hspreads⟩ := State.mbroadcast_ok hcast
          refine hstep.still hinv hspreads.reactor fun o ho => ?_
          have hsends := hspreads.sends o ho
          cases o with
          | woken => rfl
          | delivered => rfl
          | _ => cases hsends
      | mget => exact .still hsame rfl (by simp [Obs.reacts])
      | cancel hcancel =>
          rcases State.cancel_ok hcancel with
            ⟨rfl, rfl⟩ | ⟨c, b, e, hc, htrigger, hevent, _, _, hreactor, rfl⟩
          · exact .still hsame rfl fun _ h => absurd h List.not_mem_nil
          · rw [hinv.current] at hc
            exact .cancels hc htrigger hevent hsame hreactor
      | fire hfire =>
          obtain ⟨e, hevent, hmay, _, _, _, hreactor, rfl⟩ := State.fire_ok hfire
          exact .fires hevent hmay hsame hreactor
      | flag hset =>
          refine .still hsame ?_ fun _ h => absurd h List.not_mem_nil
          rw [State.setter_frame hset]
  | _ => exact hstep.still hinv rfl (by simp [Obs.reacts])

/-! ## What becomes of an event -/

namespace Event

/-- The watchers that are active are those that `event_add` started. -/
structure Sound (e : Event) : Prop where
  iosig : e.iosigActive = true → e.watches = true ∧ e.active = true
  timer : e.toActive = true → e.active = true

/-- What callbacks and `event_del` leave of an event. -/
structure Remains (e₀ e : Event) : Prop where
  arg : e.evArg = e₀.evArg
  fd : e.evFd = e₀.evFd
  active : e.active = true → e₀.active = true
  fires : ∀ revents watcher, e.mayFire revents watcher = true → e₀.mayFire revents watcher = true
  sound : e₀.Sound → e.Sound

theorem Sound.active {e : Event} (h : e.Sound) {revents : EventMask} {watcher : Watcher}
    (hmay : e.mayFire revents watcher = true) : e.active = true := by
  cases watcher with
  | iosig =>
      simp only [mayFire, Bool.and_eq_true] at hmay
      exact (h.iosig hmay.1).2
  | «to» =>
      simp only [mayFire, Bool.and_eq_true] at hmay
      exact h.timer hmay.1

theorem add_sound {e : Event} (h : e.iosigActive = false) (timed : Bool) : (e.add timed).Sound := by
  refine ⟨fun hactive => ⟨?_, rfl⟩, fun _ => rfl⟩
  rwa [add, h, Bool.false_or] at hactive

theorem Remains.refl (e : Event) : e.Remains e :=
  ⟨rfl, rfl, id, fun _ _ h => h, id⟩

theorem del_remains (e : Event) : e.Remains e.del where
  arg := rfl
  fd := rfl
  active := nofun
  fires := by
    intro revents watcher h
    cases watcher with
    | iosig =>
        simp only [mayFire, del, Bool.and_eq_true] at h ⊢
        exact ⟨h.1.1, h.2⟩
    | «to» => simp [mayFire, del] at h
  sound := by
    intro h
    refine ⟨fun hactive => ?_, nofun⟩
    simp only [del, Bool.and_eq_true, Bool.not_eq_true'] at hactive
    rw [(h.iosig hactive.1).1] at hactive
    exact absurd hactive.2 nofun

theorem fire_remains (e : Event) (watcher : Watcher) : e.Remains (e.fire watcher) := by
  cases watcher with
  | iosig =>
      simp only [fire]
      split
      · exact .refl e
      · split
        · exact .refl e
        · exact e.del_remains
  | «to» => exact e.del_remains

end Event

/-! ## The calls of the reactor -/

/-- The event that a wait of `c` sets up. -/
def WaitSpec.newEvent (c : CoroId) : WaitSpec → Event
  | .io fd mask time => (Event.set fd mask c).add (time > 0)
  | .timeout _ => (Event.timeoutSet c).add true
  | .signal number => (Event.signalSet number c).add false

@[simp] theorem newEvent_evArg (c : CoroId) (spec : WaitSpec) : (spec.newEvent c).evArg = c := by
  cases spec <;> rfl

@[simp] theorem newEvent_active (c : CoroId) (spec : WaitSpec) :
    (spec.newEvent c).active = true := by
  cases spec <;> rfl

theorem newEvent_sound (c : CoroId) (spec : WaitSpec) : (spec.newEvent c).Sound := by
  cases spec <;> exact Event.add_sound rfl _

namespace StartsWait

variable {u : User} {spec : WaitSpec} {b : Block} {r : Coreactor}

/-- A wait of a coroutine that has no trigger sets up its event. -/
theorem free (h : StartsWait s u c spec b r) (hfree : s.reactor.triggers c = none) :
    b = s.reactor.eventAllocator.malloc.1 ∧
      r = { triggers := Function.update s.reactor.triggers c (some (some b))
            eventAllocator := s.reactor.eventAllocator.malloc.2
            event := Function.update s.reactor.event b (some (spec.newEvent c)) } := by
  have hinsert : ∀ e timed, (((s.reactor.malloc.2).register s.reactor.malloc.1 e timed).insert c
      s.reactor.malloc.1) =
        { triggers := Function.update s.reactor.triggers c (some (some s.reactor.malloc.1))
          eventAllocator := s.reactor.eventAllocator.malloc.2
          event := Function.update s.reactor.event s.reactor.malloc.1 (some (e.add timed)) } := by
    intro e timed
    simp [Coreactor.insert, Coreactor.register, Coreactor.malloc, hfree]
  cases h with
  | io _ hset =>
      simp only [Coreactor.setIo] at hset
      split at hset
      next _ hsome =>
        have hnone : s.reactor.malloc.2.triggers c = none := hfree
        rw [hnone] at hsome
        cases hsome
      next =>
        obtain ⟨rfl, rfl⟩ := Prod.mk.inj (Except.ok.inj hset)
        exact ⟨rfl, hinsert _ _⟩
  | timeout _ _ hset =>
      obtain ⟨rfl, rfl⟩ := Prod.mk.inj hset
      exact ⟨rfl, hinsert _ _⟩
  | signal _ hset =>
      obtain ⟨rfl, rfl⟩ := Prod.mk.inj hset
      exact ⟨rfl, hinsert _ _⟩

/-- A wait of a coroutine that has a trigger frees its block, or sets up an event that
the table does not name. -/
theorem taken {ptr : Option Block} (h : StartsWait s u c spec b r)
    (htaken : s.reactor.triggers c = some ptr) :
    b = s.reactor.eventAllocator.malloc.1 ∧
      ((∃ fd mask timeout, spec = .io fd mask timeout) ∧ r = { s.reactor with
          eventAllocator := s.reactor.eventAllocator.malloc.2.free b
          event := Function.update s.reactor.event b none } ∨
        (∀ fd mask timeout, spec ≠ .io fd mask timeout) ∧ r = { s.reactor with
          eventAllocator := s.reactor.eventAllocator.malloc.2
          event := Function.update s.reactor.event b (some (spec.newEvent c)) }) := by
  have hinsert : ∀ e timed, (((s.reactor.malloc.2).register s.reactor.malloc.1 e timed).insert c
      s.reactor.malloc.1) = { s.reactor with
        eventAllocator := s.reactor.eventAllocator.malloc.2
        event := Function.update s.reactor.event s.reactor.malloc.1 (some (e.add timed)) } := by
    intro e timed
    simp [Coreactor.insert, Coreactor.register, Coreactor.malloc, htaken]
  cases h with
  | @io fd mask timeout _ _ _ _ _ hset =>
      simp only [Coreactor.setIo] at hset
      split at hset
      next =>
        obtain ⟨r', hfree, hset⟩ := Fallible.bind_eq_ok.mp hset
        obtain ⟨rfl, rfl⟩ := Prod.mk.inj (Except.ok.inj hset)
        obtain ⟨_, rfl⟩ := Coreactor.free_ok hfree
        refine ⟨rfl, .inl ⟨⟨fd, mask, timeout, rfl⟩, ?_⟩⟩
        simp [Coreactor.malloc]
      next hnone =>
        have hsome : s.reactor.malloc.2.triggers c = some ptr := htaken
        rw [hsome] at hnone
        cases hnone
  | timeout _ _ hset =>
      obtain ⟨rfl, rfl⟩ := Prod.mk.inj hset
      exact ⟨rfl, .inr ⟨nofun, hinsert _ _⟩⟩
  | signal _ hset =>
      obtain ⟨rfl, rfl⟩ := Prod.mk.inj hset
      exact ⟨rfl, .inr ⟨nofun, hinsert _ _⟩⟩

/-- Every event after the call was there before or is that of the wait. -/
theorem event (h : StartsWait s u c spec b r) {b' : Block} {e : Event}
    (he : r.event b' = some e) : s.reactor.event b' = some e ∨ b' = b ∧ e = spec.newEvent c := by
  have hnew : ∀ o, Function.update s.reactor.event b o b' = some e →
      s.reactor.event b' = some e ∨ b' = b ∧ o = some e := by
    intro o ho
    rw [Function.update_apply] at ho
    split at ho
    next hb => exact .inr ⟨hb, ho⟩
    next => exact .inl ho
  cases htrigger : s.reactor.triggers c with
  | none =>
      obtain ⟨_, rfl⟩ := h.free htrigger
      exact (hnew _ he).imp id fun ⟨hb, ho⟩ => ⟨hb, (Option.some.inj ho).symm⟩
  | some ptr =>
      obtain ⟨_, ⟨_, rfl⟩ | ⟨_, rfl⟩⟩ := h.taken htrigger
      · exact (hnew _ he).imp id fun ⟨_, ho⟩ => nomatch ho
      · exact (hnew _ he).imp id fun ⟨hb, ho⟩ => ⟨hb, (Option.some.inj ho).symm⟩

end StartsWait

theorem Coreactor.release_ok {r r' : Coreactor} {b : Block} (h : r.release c b = .ok r') :
    ∃ e, r.event b = some e ∧ b ∈ r.eventAllocator.held ∧
      r' = { triggers := Function.update r.triggers c none
             eventAllocator := r.eventAllocator.free b
             event := Function.update r.event b none } := by
  obtain ⟨r₁, hdel, h⟩ := Fallible.bind_eq_ok.mp h
  obtain ⟨_, e, hb, he, rfl⟩ := Coreactor.eventDel_ok hdel
  obtain rfl := Option.some.inj hb
  obtain ⟨hheld, rfl⟩ := Coreactor.free_ok h
  refine ⟨e, he, hheld, ?_⟩
  simp [Coreactor.erase]

/-- An event is that of the wait that the step begins, or what the step left of one. -/
theorem Reacts.event {b : Block} {e : Event} (h : Reacts s a s' evs)
    (he : s'.reactor.event b = some e) :
    (∃ e₀, s.reactor.event b = some e₀ ∧ e₀.Remains e) ∨
      ∃ u w, a = .user u ∧ StartsWait s u w.coro w.spec w.event s'.reactor ∧
        s'.waitIn = Function.update s.waitIn s.running (some w) ∧
          .waitBegan w.coro w.spec w.event ∈ evs ∧ b = w.event ∧ e = w.spec.newEvent w.coro := by
  have hsame : ∀ {b e}, s.reactor.event b = some e →
      ∃ e₀, s.reactor.event b = some e₀ ∧ e₀.Remains e := fun he => ⟨_, he, .refl _⟩
  have hupdate : ∀ {b₀ e₀ e₁}, s.reactor.event b₀ = some e₀ → Event.Remains e₀ e₁ →
      Function.update s.reactor.event b₀ (some e₁) b = some e →
        ∃ e₀, s.reactor.event b = some e₀ ∧ e₀.Remains e := by
    intro b₀ e₀ e₁ he₀ hremains hupdate
    rw [Function.update_apply] at hupdate
    split at hupdate
    next hb => exact ⟨e₀, hb ▸ he₀, Option.some.inj hupdate ▸ hremains⟩
    next => exact hsame hupdate
  cases h with
  | still _ hr => exact .inl (hsame (hr ▸ he))
  | begins hstarts _ _ hwaits hbegan =>
      rcases hstarts.event he with hold | ⟨hb, hnew⟩
      · exact .inl (hsame hold)
      · exact .inr ⟨_, _, rfl, hstarts, hwaits, hbegan, hb, hnew⟩
  | ends _ _ _ hreactor =>
      rcases hreactor with ⟨_, hr⟩ | ⟨_, hrelease⟩
      · exact .inl (hsame (hr ▸ he))
      · obtain ⟨_, _, _, hr⟩ := Coreactor.release_ok hrelease
        rw [hr] at he
        exact .inl (hsame (update_none_eq_some.mp he).2)
  | @fires _ watcher _ e₀ _ he₀ _ _ hr =>
      rw [hr] at he
      exact .inl (hupdate he₀ (e₀.fire_remains watcher) he)
  | @cancels _ _ _ e₀ _ _ _ he₀ _ hr =>
      rw [hr] at he
      exact .inl (hupdate he₀ e₀.del_remains he)

/-- Each event is in a block that is handed out, and its active watchers were started. -/
def EventsHeld (r : Coreactor) : Prop :=
  ∀ b e, r.event b = some e → b ∈ r.eventAllocator.held ∧ e.Sound

theorem eventsHeld_new : EventsHeld .new := nofun

theorem StartsWait.eventsHeld {u : User} {spec : WaitSpec} {b : Block} {r : Coreactor}
    (h : StartsWait s u c spec b r) (hheld : EventsHeld s.reactor) : EventsHeld r := by
  have hnew : s.reactor.eventAllocator.malloc.2.held =
      s.reactor.eventAllocator.malloc.1 :: s.reactor.eventAllocator.held :=
    s.reactor.eventAllocator.malloc_held
  have hset : ∀ b' e, Function.update s.reactor.event s.reactor.eventAllocator.malloc.1
      (some (spec.newEvent c)) b' = some e →
        b' ∈ s.reactor.eventAllocator.malloc.2.held ∧ e.Sound := by
    intro b' e he
    rw [hnew]
    rw [Function.update_apply] at he
    split at he
    next hb =>
      rw [hb, ← Option.some.inj he]
      exact ⟨List.mem_cons_self, newEvent_sound c spec⟩
    next =>
      obtain ⟨hmem, hsound⟩ := hheld b' e he
      exact ⟨List.mem_cons_of_mem _ hmem, hsound⟩
  intro b' e he
  cases htrigger : s.reactor.triggers c with
  | none =>
      obtain ⟨rfl, rfl⟩ := h.free htrigger
      exact hset b' e he
  | some ptr =>
      obtain ⟨rfl, ⟨_, rfl⟩ | ⟨_, rfl⟩⟩ := h.taken htrigger
      · dsimp only at he ⊢
        rw [LinkedAllocator.free_held, hnew, List.erase_cons_head]
        exact hheld b' e (update_none_eq_some.mp he).2
      · exact hset b' e he

theorem EventsHeld.step (h : EventsHeld s.reactor) (hreacts : Reacts s a s' evs) :
    EventsHeld s'.reactor := by
  intro b e he
  have hsound : e.Sound := by
    rcases hreacts.event he with ⟨e₀, he₀, hremains⟩ | ⟨u, w, _, hstarts, _, _, _, rfl⟩
    · exact hremains.sound (h b e₀ he₀).2
    · exact newEvent_sound _ _
  refine ⟨?_, hsound⟩
  have hupdate : ∀ {b₀ e₀ v}, s.reactor.event b₀ = some e₀ →
      Function.update s.reactor.event b₀ v b = some e → b ∈ s.reactor.eventAllocator.held := by
    intro b₀ e₀ v he₀ hupdate
    rw [Function.update_apply] at hupdate
    split at hupdate
    next hb => exact hb ▸ (h b₀ e₀ he₀).1
    next => exact (h b e hupdate).1
  cases hreacts with
  | still _ hr =>
      rw [hr] at he ⊢
      exact (h b e he).1
  | begins hstarts => exact (hstarts.eventsHeld h b e he).1
  | ends _ _ _ hreactor =>
      rcases hreactor with ⟨_, hr⟩ | ⟨_, hrelease⟩
      · rw [hr] at he ⊢
        exact (h b e he).1
      · obtain ⟨_, _, _, hr⟩ := Coreactor.release_ok hrelease
        rw [hr] at he ⊢
        dsimp only at he ⊢
        obtain ⟨hne, he⟩ := update_none_eq_some.mp he
        rw [LinkedAllocator.free_held]
        exact (List.mem_erase_of_ne hne).mpr (h b e he).1
  | fires he₀ _ _ hr =>
      rw [hr] at he ⊢
      exact hupdate he₀ he
  | cancels _ _ he₀ _ hr =>
      rw [hr] at he ⊢
      exact hupdate he₀ he

end BoostCoro.Coroutine
