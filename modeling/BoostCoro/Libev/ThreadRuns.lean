import BoostCoro.Coroutine.EventBlocks
import BoostCoro.Libev.Threads
import Mathlib.Algebra.Ring.Int.Defs
/-!
# Runs of a thread

Every run of a thread is a run of its coroutines alone, no watcher that the base still
knows is in a free block, and no wait is ended by its time before the time has passed.
-/

namespace BoostCoro.Libev

open Coroutine (hasBit EventMask CoroId Block Obs State WaitSpec SchedInv EventsHeld)

variable {τ : Type}

namespace ReactorThread

variable [LinearOrder τ] [Add τ] [Sub τ] [Zero τ] {s s' : ReactorThread τ} {i : ThreadAct τ}
  {obs tr : List Obs} {usec mnNow : τ} {stamp : Int → Int → τ} {heap : Nat → Anhe Block τ}
  {b : Block}

/-- What a step of a thread does. -/
inductive Steps (usec : τ) (stamp : Int → Int → τ) (s : ReactorThread τ) :
    ThreadAct τ → ReactorThread τ → List Obs → Prop
  | coro {a : Coroutine.Act} {coros : State} {base : EventBase Block τ} {obs : List Obs}
      (hfire : isFire a = false) (hcoros : s.coros.step a = some (.ok (coros, obs)))
      (hserve : s.base.serve usec (eventCalls stamp s.coros a) = some (.ok base)) :
      Steps usec stamp s (.coro a) ⟨coros, base⟩ obs
  | evRun {i : LoopAct Block τ} {base : EventBase Block τ} {evs : List (Fired Block)}
      (hrun : s.base.step usec (.evRun i) = some (.ok (base, evs))) :
      Steps usec stamp s (.evRun i) { s with base } []
  | quiet {pri : Fin numpri} {base : EventBase Block τ}
      (hinvoke : s.base.invoke pri = some (.ok (base, []))) :
      Steps usec stamp s (.invoke pri) { s with base } []
  | calls {pri : Fin numpri} {base : EventBase Block τ} {o : Fired Block}
      {os : List (Fired Block)} {s' : ReactorThread τ} {obs : List Obs}
      (hcode : s.coros.inUserCode = true) (hinvoke : s.base.invoke pri = some (.ok (base, o :: os)))
      (hback : s.callback base o = .ok (s', obs)) : Steps usec stamp s (.invoke pri) s' obs

theorem step_inv (h : step usec stamp s i = some (.ok (s', obs))) :
    Steps usec stamp s i s' obs := by
  cases i with
  | coro a =>
      simp only [step] at h
      split at h
      next => cases h
      next hfire =>
        split at h
        next => cases h
        next => cases h
        next coros obs' hcoros =>
          split at h
          next => cases h
          next => cases h
          next base hserve =>
            obtain ⟨rfl, rfl⟩ := Prod.mk.inj (Except.ok.inj (Option.some.inj h))
            exact .coro (Bool.eq_false_iff.mpr hfire) hcoros hserve
  | evRun i =>
      simp only [step] at h
      split at h
      next => cases h
      next => cases h
      next base evs hrun =>
        obtain ⟨rfl, rfl⟩ := Prod.mk.inj (Except.ok.inj (Option.some.inj h))
        exact .evRun hrun
  | invoke pri =>
      simp only [step] at h
      split at h
      next hcode =>
        split at h
        next => cases h
        next => cases h
        next base hinvoke =>
          obtain ⟨rfl, rfl⟩ := Prod.mk.inj (Except.ok.inj (Option.some.inj h))
          exact .quiet hinvoke
        next base o os hinvoke => exact .calls hcode hinvoke (Option.some.inj h)
      next => cases h

omit [LinearOrder τ] [Add τ] [Sub τ] [Zero τ] in
/-- A callback is seen, and the flag it clears if it was set. -/
theorem callback_ok {base : EventBase Block τ} {o : Fired Block}
    (h : s.callback base o = .ok (s', obs)) :
    s'.base = base ∧ obs = .fired o.event o.fd o.revents o.arg :: s.coros.wokenBy .evet o.arg := by
  simp only [callback] at h
  split at h
  next => cases h
  next =>
    obtain ⟨rfl, rfl⟩ := Prod.mk.inj (Except.ok.inj h)
    exact ⟨rfl, rfl⟩

/-- What holds between the coroutines and the event base. -/
structure Sound (s : ReactorThread τ) : Prop where
  sched : SchedInv s.coros.toSched
  allocator : s.coros.reactor.eventAllocator.WellFormed
  held : EventsHeld s.coros.reactor
  base : s.base.Sound
  agrees : Agrees s.coros.reactor.event s.base.events

omit [Add τ] [Sub τ] in
theorem init_sound (mnNow : τ) (heap : Nat → Anhe Block τ) : (init mnNow heap).Sound where
  sched := Coroutine.schedInv_init
  allocator := Coroutine.LinkedAllocator.new_wellFormed
  held := Coroutine.eventsHeld_new
  base := EventBase.init_sound mnNow heap
  agrees := fun _ => ⟨fun _ h => (by cases h), fun _ _ h => (by cases h)⟩

namespace Sound

omit [Add τ] [Sub τ] in
/-- A block that `malloc` gives holds no event. -/
theorem malloc_event (hs : s.Sound) :
    s.coros.reactor.event s.coros.reactor.malloc.1 = none := by
  refine Option.eq_none_iff_forall_ne_some.mpr fun ev hev => ?_
  exact hs.allocator.malloc_fresh (hs.held _ _ hev).1

omit [Add τ] [Sub τ] in
/-- The calls of a step of the coroutines. -/
theorem asks (stamp : Int → Int → τ) (hs : s.Sound) {a : Coroutine.Act} {coros : State}
    (hfire : isFire a = false) (hstep : s.coros.step a = some (.ok (coros, obs))) :
    Asks stamp s.coros.reactor.malloc.1 s.coros.reactor.event (eventCalls stamp s.coros a)
      coros.reactor.event :=
  eventCalls_asks stamp hs.sched hs.malloc_event hfire hstep

omit [Add τ] [Sub τ] in
/-- A step of the coroutines, with what it leaves of the event base. -/
theorem coros_step (hs : s.Sound) {a : Coroutine.Act} {coros : State} {base : EventBase Block τ}
    (hstep : s.coros.step a = some (.ok (coros, obs))) (hbase : base.Sound)
    (hagrees : Agrees coros.reactor.event base.events) :
    Sound ⟨coros, base⟩ ∧ Transition.Run State.step Coroutine.AnyUse s.coros obs coros := by
  have heffect := hs.sched.effect hstep
  have hreacts := hs.sched.reacts heffect
  refine ⟨?_, .single trivial hstep⟩
  exact
    { sched := hs.sched.step heffect
      allocator := hreacts.allocatorUse.wellFormed hs.allocator
      held := hs.held.step hreacts
      base := hbase
      agrees := hagrees }

omit [Add τ] [Sub τ] in
/-- A step of libev that calls nobody back. -/
theorem base_step (hs : s.Sound) {base : EventBase Block τ} (hbase : base.Sound)
    (hevents : base.events = s.base.events) : Sound { s with base } where
  sched := hs.sched
  allocator := hs.allocator
  held := hs.held
  base := hbase
  agrees := by
    show Agrees s.coros.reactor.event base.events
    rw [hevents]
    exact hs.agrees

omit [Add τ] [Sub τ] in
/-- A callback of libev is one that the coroutines allow. -/
theorem callback_step (hs : s.Sound) (hcode : s.coros.inUserCode = true)
    {base : EventBase Block τ} {watcher : Coroutine.Watcher} {revents : EventMask}
    {ev : Coroutine.Event} (hbase : base.Sound) (hev : s.base.events b = some ev)
    (hmay : ev.mayFire revents watcher = true)
    (hevents : base.events = Function.update s.base.events b (some (ev.fire watcher)))
    (hback : s.callback base ⟨b, watcher, ev.evFd, revents, ev.evArg⟩ = .ok (s', obs)) :
    s'.Sound ∧ Transition.Run State.step Coroutine.AnyUse s.coros obs s'.coros := by
  have hold := hs.agrees.mayFire hev hmay
  have hnew : base.events b = some (ev.fire watcher) := by rw [hevents, Function.update_self]
  simp only [callback, hnew] at hback
  split at hback
  next => cases hback
  next coros hcb =>
    obtain ⟨rfl, rfl⟩ := Prod.mk.inj (Except.ok.inj hback)
    have hstep : s.coros.step (.user (.fire b watcher revents)) =
        some (.ok (coros,
          .fired b ev.evFd revents ev.evArg :: s.coros.wokenBy .evet ev.evArg)) := by
      simp only [State.step, hcode, if_true, State.stepUser, State.fire, hold, hmay, hcb,
        Fallible.ok_bind]
    refine hs.coros_step hstep hbase ?_
    obtain ⟨ev', hev', -, -, -, -, hreactor, -⟩ :=
      State.fire_ok (State.step_user_inv hstep).2
    obtain rfl := Option.some.inj (hold.symm.trans hev')
    rw [hreactor, hevents]
    exact hs.agrees.update b _

theorem step (husec : usec ≠ 0) (hkill : i.kills = false) (hs : s.Sound)
    (hstep : ReactorThread.step usec stamp s i = some (.ok (s', obs))) :
    s'.Sound ∧ Transition.Run State.step Coroutine.AnyUse s.coros obs s'.coros := by
  cases step_inv hstep with
  | coro hfire hcoros hserve =>
      obtain ⟨t, hserves, hagrees⟩ := (hs.asks stamp hfire hcoros).served husec hs.base hs.agrees
      obtain ⟨hbase, rfl⟩ := hserves.leaves _ hserve
      exact hs.coros_step hcoros hbase hagrees
  | evRun hrun =>
      obtain ⟨-, hi, hne, l', evs', hloop, rfl⟩ := EventBase.step_evRun hkill hrun
      obtain ⟨hbase, hevents⟩ := EventBase.evRun_spec hs.base hi hne hloop
      exact ⟨hs.base_step hbase hevents, .refl⟩
  | quiet hinvoke =>
      obtain ⟨hbase, ⟨-, hevents⟩ | ⟨b, watcher, revents, ev, -, -, hcall, -⟩⟩ :=
        EventBase.invoke_spec hs.base hinvoke
      · exact ⟨hs.base_step hbase hevents, .refl⟩
      · cases hcall
  | calls hcode hinvoke hback =>
      obtain ⟨hbase, ⟨hnone, -⟩ | ⟨b, watcher, revents, ev, hev, hmay, hcall, hevents⟩⟩ :=
        EventBase.invoke_spec hs.base hinvoke
      · cases hnone
      · obtain ⟨rfl, -⟩ := List.cons.inj hcall
        exact hs.callback_step hcode hbase hev hmay hevents hback

end Sound

theorem run_sound (husec : usec ≠ 0) (h : Transition.Run (step usec stamp)
    (fun _ i => i.kills = false) (init mnNow heap) tr s) : s.Sound :=
  h.invariant (fun _ _ _ _ hs hkill hstep => (hs.step husec hkill hstep).1)
    (init_sound mnNow heap)

/-- As long as the backend finds no descriptor unusable, every run of a thread is a run of the
coroutines with the same events. -/
theorem run_coros (husec : usec ≠ 0) (h : Transition.Run (step usec stamp)
    (fun _ i => i.kills = false) (init mnNow heap) tr s) :
    Coroutine.RunOf Coroutine.AnyUse tr s.coros := by
  obtain ⟨coros, hrun, -, rfl⟩ := h.simulates (R := fun s coros => s.Sound ∧ coros = s.coros)
    (fun s coros i s' evs hR hkill hstep => by
      obtain ⟨hs, rfl⟩ := hR
      obtain ⟨hs', hrun⟩ := hs.step husec hkill hstep
      exact ⟨s'.coros, hrun, hs', rfl⟩) ⟨init_sound mnNow heap, rfl⟩
  exact hrun

/-- Times are in microseconds. -/
def micros (s us : Int) : Int := s * 1000000 + us

/-- Some steps of a thread whose times are in microseconds. -/
def turns (s : ReactorThread Int) (is : List (ThreadAct Int)) : ReactorThread Int × List Obs :=
  Transition.after (step 1 micros) (fun _ i => i.kills = false) s is

/-- Main enters coroutine 0. -/
def afterEnter : ReactorThread Int × List Obs :=
  turns (init 0 fun _ => ⟨0, 0⟩) (Coroutine.enterAlone.map .coro)

theorem afterEnter_run : Transition.Run (step 1 micros) (fun _ i => i.kills = false)
    (init 0 fun _ => ⟨0, 0⟩) afterEnter.2 afterEnter.1 :=
  Transition.run_after (by decide +kernel)

/-- The coroutine waits for a second, which passes, and is called back. -/
def afterSleep : ReactorThread Int × List Obs :=
  turns afterEnter.1 ((Coroutine.sleepAlone (.setTimeout 1000 none)).map .coro ++
    [.evRun (.timeUpdate 2000000), .evRun .timersReify, .invoke defaultPri])

theorem afterSleep_run : Transition.Run (step 1 micros) (fun _ i => i.kills = false)
    (init 0 fun _ => ⟨0, 0⟩) (afterEnter.2 ++ afterSleep.2) afterSleep.1 :=
  afterEnter_run.trans (Transition.run_after (by decide +kernel))

theorem run_coros_afterSleep : Coroutine.RunOf Coroutine.AnyUse
    [.constructed 0, .attached 0 none, .passBegin none, .transferred 0,
      .waitBegan 0 (.timeout 1000) 0, .passBegin (some 0), .passEnd (some 0), .handedBack none,
      .passEnd none, .fired 0 (-1) Coroutine.evTimeout 0, .woken 0] afterSleep.1.coros := by
  have htrace : afterEnter.2 ++ afterSleep.2 = [.constructed 0, .attached 0 none,
      .passBegin none, .transferred 0, .waitBegan 0 (.timeout 1000) 0, .passBegin (some 0),
      .passEnd (some 0), .handedBack none, .passEnd none,
      .fired 0 (-1) Coroutine.evTimeout 0, .woken 0] := by
    decide +kernel
  exact htrace ▸ run_coros (by decide) afterSleep_run

/-- Main resumes the coroutine, and its wait ends. -/
def afterWake : ReactorThread Int × List Obs :=
  turns afterSleep.1 (Coroutine.wakeAlone.map .coro ++ [.coro .lib])

/-- Only the timer of an event calls back with `EV_TIMEOUT`. -/
theorem mayFire_timeout {ev : Coroutine.Event} {revents : EventMask}
    {watcher : Coroutine.Watcher} (h : ev.mayFire revents watcher = true)
    (hto : hasBit revents Coroutine.evTimeout = true) : watcher = .to := by
  cases watcher with
  | «to» => rfl
  | iosig =>
      have hbits := (Bool.and_eq_true_iff.mp h).2
      split at hbits
      next =>
        rw [beq_iff_eq.mp hbits] at hto
        cases hto
      next =>
        have hmask := beq_iff_eq.mp (Bool.and_eq_true_iff.mp hbits).2
        have hnone : (Coroutine.evRead ||| Coroutine.evWrite) &&& Coroutine.evTimeout = 0#16 := rfl
        refine absurd ?_ (bne_iff_ne.mp hto)
        rw [← hmask, BitVec.and_assoc, BitVec.and_assoc, hnone, BitVec.and_zero, BitVec.and_zero]
        rfl

/-- The coroutines see a callback only when one is made. -/
theorem isFire_of_fired {s s' : State} {a : Coroutine.Act} {fd : Int} {revents : EventMask}
    {c : CoroId} (h : Coroutine.Reacts s a s' obs) (ho : .fired b fd revents c ∈ obs) :
    isFire a = true := by
  cases h with
  | still _ _ hevs => cases hevs _ ho
  | begins _ _ _ _ _ hevs => cases hevs _ ho rfl
  | ends => cases List.mem_singleton.mp ho
  | fires => rfl
  | cancels =>
      rcases List.mem_append.mp ho with hwoken | hcancelled
      · cases Coroutine.reacts_wokenBy _ hwoken
      · cases List.mem_singleton.mp hcancelled

/-- The steps of a thread while a block is handed out and the monotonic clock does not go
back. -/
def Holds (b : Block) (s : ReactorThread τ) (i : ThreadAct τ) : Prop :=
  i.kills = false ∧ b ∈ s.coros.reactor.eventAllocator.held ∧
    i.forward s.base.loop.timers.mnNow = true

instance (b : Block) (s : ReactorThread τ) (i : ThreadAct τ) : Decidable (Holds b s i) :=
  inferInstanceAs (Decidable (_ ∧ _ ∧ _))

/-- From one base to another the event in a block is not added, and it is the base that calls
back each timeout of it that the coroutines see. -/
def Timed (usec : τ) (b : Block) (base base' : EventBase Block τ) (tr : List Obs) : Prop :=
  ∃ evs, Transition.Run (EventBase.step usec) (fun s i => i.kills = false ∧ i.adds b = false ∧
      i.forward s.loop.timers.mnNow = true) base evs base' ∧
    ∀ fd revents c, .fired b fd revents c ∈ tr → hasBit revents Coroutine.evTimeout = true →
      ∃ o ∈ evs, o.event = b ∧ o.watcher = .to

theorem Timed.trans {base base₁ base₂ : EventBase Block τ} {tr' : List Obs}
    (h : Timed usec b base base₁ tr) (h' : Timed usec b base₁ base₂ tr') :
    Timed usec b base base₂ (tr ++ tr') := by
  obtain ⟨evs, hrun, htimes⟩ := h
  obtain ⟨evs', hrun', htimes'⟩ := h'
  refine ⟨evs ++ evs', hrun.trans hrun', fun fd revents c ho hto => ?_⟩
  rcases List.mem_append.mp ho with hold | hnew
  · obtain ⟨o, hmem, ho⟩ := htimes fd revents c hold hto
    exact ⟨o, List.mem_append_left _ hmem, ho⟩
  · obtain ⟨o, hmem, ho⟩ := htimes' fd revents c hnew hto
    exact ⟨o, List.mem_append_right _ hmem, ho⟩

theorem Sound.holds_step (hs : s.Sound) (hok : Holds b s i)
    (hstep : ReactorThread.step usec stamp s i = some (.ok (s', obs))) :
    Timed usec b s.base s'.base obs := by
  obtain ⟨hkill, hheld, hforward⟩ := hok
  cases step_inv hstep with
  | coro hfire hcoros hserve =>
      have hnew : b ≠ s.coros.reactor.malloc.1 := fun heq =>
        hs.allocator.malloc_fresh (heq ▸ hheld)
      have hasks := hs.asks stamp hfire hcoros
      obtain ⟨evs, hrun⟩ := EventBase.serve_run
        (fun t j hj => hasks.calls hnew hj t.loop.timers.mnNow) hserve
      refine ⟨evs, hrun, fun fd revents c ho => ?_⟩
      have hreacts := hs.sched.reacts (hs.sched.effect hcoros)
      cases hfire.symm.trans (isFire_of_fired hreacts ho)
  | evRun hrun =>
      exact ⟨_, .single ⟨hkill, rfl, hforward⟩ hrun, fun _ _ _ ho => by cases ho⟩
  | @quiet pri base hinvoke =>
      have hinvoke : EventBase.step usec s.base (.invoke pri) = some (.ok (base, [])) := hinvoke
      exact ⟨_, .single ⟨rfl, rfl, rfl⟩ hinvoke, fun _ _ _ ho => by cases ho⟩
  | @calls pri base o os _ _ _ hinvoke hback =>
      obtain ⟨rfl, rfl⟩ := callback_ok hback
      obtain ⟨-, ⟨hnone, -⟩ | ⟨b', watcher, revents', ev, -, hmay, hcall, -⟩⟩ :=
        EventBase.invoke_spec hs.base hinvoke
      · cases hnone
      have hinvoke : EventBase.step usec s.base (.invoke pri) = some (.ok (s'.base, o :: os)) :=
        hinvoke
      refine ⟨_, .single ⟨rfl, rfl, rfl⟩ hinvoke, fun fd revents c ho hto => ?_⟩
      obtain ⟨rfl, -⟩ := List.cons.inj hcall
      rcases List.mem_cons.mp ho with hhead | hwoken
      · cases hhead
        exact ⟨_, List.mem_cons_self, rfl, mayFire_timeout hmay hto⟩
      · cases Coroutine.reacts_wokenBy _ hwoken

theorem Sound.holds_run (husec : usec ≠ 0) (hs : s.Sound)
    (h : Transition.Run (ReactorThread.step usec stamp) (Holds b) s tr s') :
    Timed usec b s.base s'.base tr := by
  refine (h.invariant_trace (I := fun tr s' => s'.Sound ∧ Timed usec b s.base s'.base tr) ?_
    ⟨hs, [], .refl, fun _ _ _ ho => by cases ho⟩).2
  rintro tr t i t' obs ⟨ht, htimed⟩ hok hstep
  exact ⟨(ht.step husec hok.1 hstep).1, htimed.trans (ht.holds_step hok hstep)⟩

omit [Add τ] [Sub τ] in
/-- A wait that keeps its block makes the calls that set its event up. -/
theorem Sound.begins_calls (hs : s.Sound) {a : Coroutine.Act} {c : CoroId} {spec : WaitSpec}
    {coros : State} (hfire : isFire a = false)
    (hcoros : s.coros.step a = some (.ok (coros, obs))) (hwait : .waitBegan c spec b ∈ obs)
    (hb : b ∈ coros.reactor.eventAllocator.held) :
    eventCalls stamp s.coros a = setsUp stamp c b spec := by
  cases hs.sched.reacts (hs.sched.effect hcoros) with
  | still _ _ hevs => cases hevs _ hwait
  | @begins u w _ _ hstarts _ _ _ _ hevs =>
      obtain ⟨rfl, rfl, rfl⟩ := Obs.waitBegan.inj (hevs _ hwait rfl)
      cases htrigger : s.coros.reactor.triggers w.coro with
      | none =>
          rw [(hstarts.free htrigger).1]
          exact eventCalls_setsUp hs.sched hstarts (.inl htrigger)
      | some ptr =>
          obtain ⟨hnew, ⟨-, hr⟩ | ⟨hspec, -⟩⟩ := hstarts.taken htrigger
          · -- the block was given back
            have hheld :
                coros.reactor.eventAllocator.held = s.coros.reactor.eventAllocator.held := by
              rw [hr, hnew, Coroutine.LinkedAllocator.free_held,
                Coroutine.LinkedAllocator.malloc_held, List.erase_cons_head]
            rw [hheld, hnew] at hb
            exact absurd hb hs.allocator.malloc_fresh
          · rw [hnew]
            exact eventCalls_setsUp hs.sched hstarts (.inr hspec)
  | ends => cases List.mem_singleton.mp hwait
  | fires => cases hfire
  | cancels =>
      rcases List.mem_append.mp hwait with hwoken | hcancelled
      · cases Coroutine.reacts_wokenBy _ hwoken
      · cases List.mem_singleton.mp hcancelled

/-- The coroutine waits for a second. -/
def afterWait : ReactorThread Int × List Obs :=
  turns afterEnter.1 [.coro (.user (.setTimeout 1000 none))]

/-- The second passes while the block of the wait is handed out. -/
def afterSecond : ReactorThread Int × List Obs :=
  Transition.after (step 1 micros) (Holds 0) afterWait.1 (List.replicate 5 (.coro .lib) ++
    [.evRun (.timeUpdate 2000000), .evRun .timersReify, .invoke defaultPri])

end ReactorThread

end BoostCoro.Libev
