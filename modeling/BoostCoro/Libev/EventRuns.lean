import BoostCoro.Libev.EventCalls
/-!
# Runs of event bases

An event base is simulated by the events of the reactor: every step is one of
theirs or cannot be seen. An event that is not added is not called back, a timeout
is not called back early, and no watcher that was told something is forgotten.
-/

namespace BoostCoro.Libev

open Coroutine (hasBit EventMask CoroId)

variable {ι τ : Type} [DecidableEq ι] [LinearOrder τ] [Add τ] [Sub τ] [Zero τ]

/-! ## The events of the reactor as a system -/

/-- What can happen to the reactor's events. -/
inductive EventsAct (ι : Type) where
  | set (e : ι) (fd : Int) (events : EventMask) (arg : CoroId)
  | add (e : ι) (timed : Bool)
  | del (e : ι)
  | fire (e : ι) (watcher : Coroutine.Watcher) (revents : EventMask)

/-- The reactor's events: a callback is made when `Event.mayFire` allows it. -/
def eventsStep {ι : Type} [DecidableEq ι] :
    Transition.StepFn (ι → Option Coroutine.Event) (EventsAct ι) Empty (Fired ι) := fun a i =>
  match i with
  | .set e fd events arg =>
    match a e with
    | some ev =>
      if ev.iosigActive || ev.toActive then none
      else some (.ok (Function.update a e (some (.set fd events arg)), []))
    | none => some (.ok (Function.update a e (some (.set fd events arg)), []))
  | .add e timed =>
    match a e with
    | some ev => some (.ok (Function.update a e (some (ev.add timed)), []))
    | none => none
  | .del e =>
    match a e with
    | some ev => some (.ok (Function.update a e (some ev.del), []))
    | none => none
  | .fire e watcher revents =>
    match a e with
    | some ev =>
      if ev.mayFire revents watcher then
        some (.ok (Function.update a e (some (ev.fire watcher)),
          [⟨e, watcher, ev.evFd, revents, ev.evArg⟩]))
      else none
    | none => none

namespace EventBase

variable {s s' : EventBase ι τ} {usec mnNow : τ} {heap : Nat → Anhe ι τ}

/-- What a step of an event base may be for the events: one that adds an event is a call of
`event_add`. -/
def Matches (i : EventAct ι τ) (j : EventsAct ι) : Prop :=
  ∀ e timed, j = .add e timed → ∃ tv, i = .eventAdd e tv

/-- A step of an event base is a step of the events, or cannot be seen. -/
theorem step_simulates {i : EventAct ι τ} {evs : List (Fired ι)} (husec : usec ≠ 0)
    (hkill : i.kills = false) (hs : s.Sound)
    (hstep : step usec s i = some (.ok (s', evs))) :
    s'.Sound ∧ Transition.Run eventsStep (fun _ j => Matches i j) s.events evs s'.events := by
  cases i with
  | eventSet e fd events arg =>
      obtain ⟨rfl, hidle, f', x', hcalls, hview⟩ := step_eventSet hs hstep
      obtain ⟨hsound, hevents⟩ := hcalls.spec hs
      have hnew : view? (some f') x' = some (Coroutine.Event.set fd events arg) :=
        congrArg some hview
      refine ⟨hsound, ?_⟩
      rw [hevents, hnew]
      refine .single (i := .set e fd events arg) (fun _ _ h => by cases h) ?_
      simp only [eventsStep]
      split
      next ev hev =>
        obtain ⟨f, hf, rfl⟩ := Option.map_eq_some_iff.mp hev
        obtain ⟨⟨hio, -⟩, ⟨hsig, -⟩, hto, -⟩ := hidle
        rw [if_neg]
        have harmed := Timers.armed_eq_none.mpr hto
        simp [view, Loop.face, hio, hsig, harmed]
      next => rfl
  | eventAdd e tv =>
      obtain ⟨rfl, f, f', x', he, hcalls, hview, -⟩ := step_eventAdd husec hs hstep
      obtain ⟨hsound, hevents⟩ := hcalls.spec hs
      have hnew : view? (some f') x' = some ((view f (s.loop.face e)).add tv.isSome) :=
        congrArg some hview
      have hold : s.events e = some (view f (s.loop.face e)) := congrArg (view? · _) he
      refine ⟨hsound, ?_⟩
      rw [hevents, hnew]
      have hmatch : Matches (.eventAdd e tv) (EventsAct.add e tv.isSome) := by
        rintro e' timed heq
        cases heq
        exact ⟨tv, rfl⟩
      refine .single (i := .add e tv.isSome) hmatch ?_
      simp only [eventsStep, hold]
  | eventDel e =>
      obtain ⟨rfl, f, f', x', he, hcalls, hview⟩ := step_eventDel hs hstep
      obtain ⟨hsound, hevents⟩ := hcalls.spec hs
      have hnew : view? (some f') x' = some (view f (s.loop.face e)).del := congrArg some hview
      have hold : s.events e = some (view f (s.loop.face e)) := congrArg (view? · _) he
      refine ⟨hsound, ?_⟩
      rw [hevents, hnew]
      refine .single (i := .del e) (fun _ _ h => by cases h) ?_
      simp only [eventsStep, hold]
  | evRun i =>
      obtain ⟨rfl, hi, hne, l', evs', hloop, rfl⟩ := step_evRun hkill hstep
      obtain ⟨hsound, hevents⟩ := evRun_spec hs hi hne hloop
      rw [hevents]
      exact ⟨hsound, .refl⟩
  | invoke pri =>
      obtain ⟨hsound, ⟨rfl, hevents⟩ | ⟨e, watcher, revents, ev, hev, hmay, rfl, hevents⟩⟩ :=
        invoke_spec hs hstep
      · rw [hevents]
        exact ⟨hsound, .refl⟩
      · refine ⟨hsound, ?_⟩
        rw [hevents]
        refine .single (i := .fire e watcher revents) (fun _ _ h => by cases h) ?_
        simp only [eventsStep, hev, if_pos hmay]

omit [DecidableEq ι] [Add τ] [Sub τ] in
theorem init_sound (mnNow : τ) (heap : Nat → Anhe ι τ) : (init mnNow heap).Sound := by
  have hloop := Loop.init_sound (fun _ : Watcher ι => defaultPri) mnNow heap
  refine ⟨hloop, fun e => fits_idle hloop.queue ?_ none⟩
  exact ⟨⟨rfl, rfl⟩, ⟨rfl, rfl⟩, rfl, rfl⟩

variable {tr : List (Fired ι)}

theorem run_sound (husec : usec ≠ 0)
    (h : Transition.Run (step usec) (fun _ i => i.kills = false) (init mnNow heap) tr s) :
    s.Sound :=
  h.invariant (fun _ _ _ _ hs hkill hstep => (step_simulates husec hkill hs hstep).1)
    (init_sound mnNow heap)

/-- As long as the backend finds no descriptor unusable, every run of an event base is a run of
the events of the reactor with the same callbacks. -/
theorem run_refines (husec : usec ≠ 0)
    (h : Transition.Run (step usec) (fun _ i => i.kills = false) (init mnNow heap) tr s) :
    Transition.Run eventsStep (fun _ _ => True) (fun _ => none) tr s.events := by
  have hsim : ∃ a, Transition.Run eventsStep (fun _ _ => True) (fun _ => none) tr a ∧
      s.Sound ∧ a = s.events := by
    refine h.simulates (R := fun s a => s.Sound ∧ a = s.events)
      (fun s a i s' evs hR hkill hstep => ?_) ⟨init_sound mnNow heap, rfl⟩
    obtain ⟨hs, rfl⟩ := hR
    obtain ⟨hs', hrun⟩ := step_simulates husec hkill hs hstep
    exact ⟨s'.events, hrun.mono fun _ _ _ => trivial, hs', rfl⟩
  obtain ⟨a, hrun, -, rfl⟩ := hsim
  exact hrun

/-- An event for a descriptor, with a timeout, that is told that the descriptor is ready. -/
def calls : List (EventAct Nat Int) :=
  [.eventSet 0 7 Coroutine.evRead 3, .eventAdd 0 (some 5), .evRun .fdReify,
    .evRun (.fdEvent 7 evRead)]

def afterCalls : EventBase Nat Int × List (Fired Nat) :=
  Transition.after (step 1) (fun _ i => i.kills = false) (init 0 fun _ => ⟨0, 0⟩) calls

theorem afterCalls_run : Transition.Run (step 1) (fun _ i => i.kills = false)
    (init 0 fun _ => ⟨0, 0⟩) afterCalls.2 afterCalls.1 :=
  Transition.run_after (by decide +kernel)

/-- Its callback, then the one for the timeout after it was added again. -/
def afterTimeout : EventBase Nat Int × List (Fired Nat) :=
  Transition.after (step 1) (fun _ i => i.kills = false) afterCalls.1
    [.invoke defaultPri, .eventAdd 0 (some 5), .evRun (.timeUpdate 6), .evRun .timersReify,
      .invoke defaultPri]

theorem run_refines_afterTimeout :
    Transition.Run eventsStep (fun _ _ => True) (fun _ => none)
      [⟨0, .iosig, 7, Coroutine.evRead, 3⟩, ⟨0, .to, 7, Coroutine.evTimeout, 3⟩]
      afterTimeout.1.events := by
  have hrun : Transition.Run (step 1) (fun _ i => i.kills = false) afterCalls.1 afterTimeout.2
      afterTimeout.1 := Transition.run_after (by decide +kernel)
  have htrace : afterCalls.2 ++ afterTimeout.2 =
      [⟨0, .iosig, 7, Coroutine.evRead, 3⟩, ⟨0, .to, 7, Coroutine.evTimeout, 3⟩] := by
    decide +kernel
  exact htrace ▸ run_refines (by decide) (afterCalls_run.trans hrun)

/-! ## Events that are not added -/

end EventBase

/-- No watcher of the event is active. -/
def Quiet {ι : Type} (a : ι → Option Coroutine.Event) (e : ι) : Prop :=
  ∀ ev, a e = some ev → ev.iosigActive = false ∧ ev.toActive = false

/-- An event that is quiet stays so until it is added. -/
theorem quiet_run {ι : Type} [DecidableEq ι] {a a' : ι → Option Coroutine.Event}
    {tr : List (Fired ι)} {e : ι}
    (h : Transition.Run eventsStep (fun _ j => ∀ timed, j ≠ .add e timed) a tr a')
    (ha : Quiet a e) : Quiet a' e ∧ ∀ o ∈ tr, o.event ≠ e := by
  refine h.invariant_trace (I := fun tr a => Quiet a e ∧ ∀ o ∈ tr, o.event ≠ e) ?_
    ⟨ha, fun o ho => absurd ho List.not_mem_nil⟩
  rintro tr a j a' evs ⟨hq, htr⟩ hok hstep
  -- an event of another name
  have hother : ∀ {x ev}, x ≠ e → Quiet (Function.update a x ev) e := by
    intro x ev hx ev' hev'
    rw [Function.update_of_ne (Ne.symm hx)] at hev'
    exact hq ev' hev'
  cases j with
  | set x fd events arg =>
      have heffect : Quiet (Function.update a x (some (.set fd events arg))) e := by
        by_cases hx : x = e
        · intro ev hev
          rw [hx, Function.update_self] at hev
          obtain rfl := Option.some.inj hev
          exact ⟨rfl, rfl⟩
        · exact hother hx
      simp only [eventsStep] at hstep
      split at hstep
      next =>
        split at hstep
        next => cases hstep
        next =>
          obtain ⟨rfl, rfl⟩ := Prod.mk.inj (Except.ok.inj (Option.some.inj hstep))
          exact ⟨heffect, by simpa using htr⟩
      next =>
        obtain ⟨rfl, rfl⟩ := Prod.mk.inj (Except.ok.inj (Option.some.inj hstep))
        exact ⟨heffect, by simpa using htr⟩
  | add x timed =>
      simp only [eventsStep] at hstep
      split at hstep
      next =>
        obtain ⟨rfl, rfl⟩ := Prod.mk.inj (Except.ok.inj (Option.some.inj hstep))
        have hx : x ≠ e := fun heq => hok timed (heq ▸ rfl)
        exact ⟨hother hx, by simpa using htr⟩
      next => cases hstep
  | del x =>
      simp only [eventsStep] at hstep
      split at hstep
      next ev hev =>
        obtain ⟨rfl, rfl⟩ := Prod.mk.inj (Except.ok.inj (Option.some.inj hstep))
        refine ⟨?_, by simpa using htr⟩
        by_cases hx : x = e
        · intro ev' hev'
          rw [hx, Function.update_self] at hev'
          obtain rfl := Option.some.inj hev'
          simp [Coroutine.Event.del, (hq ev (hx ▸ hev)).1]
        · exact hother hx
      next => cases hstep
  | fire x watcher revents =>
      simp only [eventsStep] at hstep
      split at hstep
      next ev hev =>
        split at hstep
        next hmay =>
          obtain ⟨rfl, rfl⟩ := Prod.mk.inj (Except.ok.inj (Option.some.inj hstep))
          have hx : x ≠ e := by
            rintro rfl
            obtain ⟨hio, hto⟩ := hq ev hev
            cases watcher <;> simp [Coroutine.Event.mayFire, hio, hto] at hmay
          refine ⟨hother hx, fun o ho => ?_⟩
          rcases List.mem_append.mp ho with ho | ho
          · exact htr o ho
          · rw [List.mem_singleton.mp ho]
            exact hx
        next => cases hstep
      next => cases hstep

namespace EventBase

variable {s s' s₁ : EventBase ι τ} {usec mnNow : τ} {heap : Nat → Anhe ι τ}
variable {tr tr' evs : List (Fired ι)} {e : ι}

/-- An event that is quiet is not called back before it is added again. -/
theorem Sound.silent (husec : usec ≠ 0) (hs : s.Sound) (hq : Quiet s.events e)
    (h : Transition.Run (step usec) (fun _ i => i.kills = false ∧ i.adds e = false) s tr s') :
    ∀ o ∈ tr, o.event ≠ e := by
  have hsim : ∃ a, Transition.Run eventsStep (fun _ j => ∀ timed, j ≠ .add e timed)
      s.events tr a ∧ s'.Sound ∧ a = s'.events := by
    refine h.simulates (R := fun s a => s.Sound ∧ a = s.events)
      (fun s a i s' evs hR hok hstep => ?_) ⟨hs, rfl⟩
    obtain ⟨hs, rfl⟩ := hR
    obtain ⟨hs', hrun⟩ := step_simulates husec hok.1 hs hstep
    refine ⟨s'.events, hrun.mono fun _ j hmatch timed heq => ?_, hs', rfl⟩
    obtain ⟨tv, rfl⟩ := hmatch e timed heq
    have hadds : decide (e = e) = false := hok.2
    exact absurd rfl (of_decide_eq_false hadds)
  obtain ⟨a, hrun, -⟩ := hsim
  exact (quiet_run hrun hq).2

omit [DecidableEq ι] [Add τ] [Sub τ] in
/-- Of an event that is active, `event_del` finds the watchers to stop. -/
theorem Sound.watches (hs : s.Sound) {ev : Coroutine.Event} (hev : s.events e = some ev)
    (hon : ev.iosigActive = true) : ev.watches = true := by
  obtain ⟨f, hf, rfl⟩ := Option.map_eq_some_iff.mp hev
  have hfits := hs.fits e
  rw [hf] at hfits
  rcases Bool.or_eq_true_iff.mp hon with hio | hsig
  · obtain ⟨g, hg, -, hbits, -⟩ := hfits.io hio
    obtain rfl := Option.some.inj hg
    exact Bool.or_eq_true_iff.mpr (.inr hbits)
  · obtain ⟨g, hg, hbit⟩ := hfits.sig hsig
    obtain rfl := Option.some.inj hg
    exact Bool.or_eq_true_iff.mpr (.inl hbit)

omit [Add τ] [Sub τ] in
theorem Sound.quiet_del (hs : s.Sound) {ev : Coroutine.Event} (hev : s.events e = some ev) :
    Quiet (Function.update s.events e (some ev.del)) e := by
  intro ev' hev'
  rw [Function.update_self] at hev'
  obtain rfl := Option.some.inj hev'
  refine ⟨?_, rfl⟩
  rcases Bool.eq_false_or_eq_true ev.iosigActive with hon | hoff
  · simp [Coroutine.Event.del, hs.watches hev hon]
  · simp [Coroutine.Event.del, hoff]

/-- The steps that leave an event without an active watcher: `event_del`, the callback for its
timeout, and the one for its descriptor if it is not persistent. -/
inductive Ends (s : EventBase ι τ) (e : ι) : EventAct ι τ → List (Fired ι) → Prop
  | deleted : Ends s e (.eventDel e) []
  | timedOut {pri : Fin numpri} {o : Fired ι} (he : o.event = e) (hto : o.watcher = .to) :
      Ends s e (.invoke pri) [o]
  | ready {pri : Fin numpri} {o : Fired ι} {f : EventFields} (he : o.event = e)
      (hio : o.watcher = .iosig) (hf : s.event e = some f)
      (hsig : hasBit f.evEvents Coroutine.evSignal = false)
      (honce : hasBit f.evEvents Coroutine.evPersist = false) : Ends s e (.invoke pri) [o]

theorem Sound.quiet_ends {i : EventAct ι τ} (hs : s.Sound) (hend : Ends s e i evs)
    (hstep : step usec s i = some (.ok (s₁, evs))) : s₁.Sound ∧ Quiet s₁.events e := by
  cases hend with
  | deleted =>
      obtain ⟨-, f, f', x', he, hcalls, hview⟩ := step_eventDel hs hstep
      obtain ⟨hsound, hevents⟩ := hcalls.spec hs
      have hnew : view? (some f') x' = some (view f (s.loop.face e)).del := congrArg some hview
      have hold : s.events e = some (view f (s.loop.face e)) := congrArg (view? · _) he
      refine ⟨hsound, ?_⟩
      rw [hevents, hnew]
      exact hs.quiet_del hold
  | timedOut he hto =>
      obtain ⟨hsound, ⟨hnone, -⟩ | ⟨e', watcher, r, ev, hev, -, heq, hevents⟩⟩ :=
        invoke_spec hs hstep
      · cases hnone
      · obtain rfl := List.singleton_inj.mp heq
        obtain rfl : watcher = .to := hto
        obtain rfl : e' = e := he
        refine ⟨hsound, ?_⟩
        rw [hevents]
        exact hs.quiet_del hev
  | ready he hio hf hsig honce =>
      obtain ⟨hsound, ⟨hnone, -⟩ | ⟨e', watcher, r, ev, hev, -, heq, hevents⟩⟩ :=
        invoke_spec hs hstep
      · cases hnone
      · obtain rfl := List.singleton_inj.mp heq
        obtain rfl : watcher = .iosig := hio
        obtain rfl : e' = e := he
        obtain ⟨g, hg, rfl⟩ := Option.map_eq_some_iff.mp hev
        obtain rfl := Option.some.inj (hg.symm.trans hf)
        have hfire : (view g (s.loop.face e')).fire .iosig = (view g (s.loop.face e')).del := by
          simp only [Coroutine.Event.fire, view, hsig, honce, Bool.false_eq_true, if_false]
        refine ⟨hsound, ?_⟩
        rw [hevents, hfire]
        exact hs.quiet_del hev

/-- After `event_del`, after its timeout, and after a callback for its descriptor if it is not
persistent, an event is not called back before it is added again, whatever its watchers were
told before. -/
theorem ended_silent {i : EventAct ι τ} (husec : usec ≠ 0)
    (h : Transition.Run (step usec) (fun _ i => i.kills = false) (init mnNow heap) tr s)
    (hend : Ends s e i evs) (hstep : step usec s i = some (.ok (s₁, evs)))
    (h' : Transition.Run (step usec) (fun _ i => i.kills = false ∧ i.adds e = false) s₁ tr' s') :
    ∀ o ∈ tr', o.event ≠ e := by
  obtain ⟨hs₁, hquiet⟩ := (run_sound husec h).quiet_ends hend hstep
  exact hs₁.silent husec hquiet h'

/-- The event is deleted while its watcher waits to be called back. -/
def afterDel : EventBase Nat Int × List (Fired Nat) :=
  Transition.after (step 1) (fun _ i => i.kills = false) afterCalls.1 [.eventDel 0]

/-- The slot of the watcher is taken, and the time that the event was to wait for passes. -/
def afterSilence : EventBase Nat Int × List (Fired Nat) :=
  Transition.after (step 1) (fun _ i => i.kills = false ∧ i.adds 0 = false) afterDel.1
    [.invoke defaultPri, .evRun (.timeUpdate 6), .evRun .timersReify]

theorem ended_silent_afterDel : 0 ∉ afterSilence.2.map Fired.event := by
  have hdel : step 1 afterCalls.1 (.eventDel 0) = some (.ok (afterDel.1, [])) := by
    have hstep : step 1 afterCalls.1 (.eventDel 0) = some (.ok (afterDel.1, afterDel.2)) :=
      (Transition.step_after (by decide +kernel)).2
    have hnone : afterDel.2 = [] := by decide +kernel
    rwa [hnone] at hstep
  intro hcalled
  obtain ⟨o, ho, he⟩ := List.mem_map.mp hcalled
  exact ended_silent (by decide) afterCalls_run .deleted hdel
    (Transition.run_after (by decide +kernel)) o ho he

/-! ## Timeouts are not early -/

/-- The timer is left as it is, or stopped. -/
def TimerLeft (x x' : Face τ) : Prop :=
  x'.armed = x.armed ∧ x'.toTold = x.toTold ∨ x'.armed = none ∧ x'.toTold = none

omit [DecidableEq ι] [LinearOrder τ] [Add τ] [Sub τ] in
theorem Fits.stopped {f : Option EventFields} {x : Face τ} (h : Fits f x)
    (ha : x.armed.isSome = false) : x.armed = none ∧ x.toTold = none := by
  have hnone : x.armed = none := Option.isSome_eq_false_iff.mp ha |> Option.isNone_iff_eq_none.mp
  refine ⟨hnone, Option.eq_none_iff_forall_ne_some.mpr fun r hr => ?_⟩
  exact (h.toTold r hr).1 hnone

omit [Add τ] [Sub τ] in
theorem Calls.timerLeft {f' : EventFields} {x' : Face τ} {v : ι}
    (h : Calls s s' v (some f') x') (hto : (view f' x').toActive = false) (e : ι) :
    TimerLeft (s.loop.face e) (s'.loop.face e) := by
  rw [h.face]
  by_cases he : e = v
  · rw [he, Function.update_self]
    exact .inr (h.fits.stopped hto)
  · rw [Function.update_of_ne he]
    exact .inl ⟨rfl, rfl⟩

/-- What a callback does to the timers, and that a timeout is called back only after it was
told so. -/
theorem invoke_timers {pri : Fin numpri} (hs : s.Sound)
    (hok : s.invoke pri = some (.ok (s', evs))) :
    s'.loop.timers.mnNow = s.loop.timers.mnNow ∧
      (∀ e, TimerLeft (s.loop.face e) (s'.loop.face e)) ∧
      ∀ o ∈ evs, o.watcher = .to → (s.loop.face o.event).toTold ≠ none := by
  rcases invoke_cases hok with ⟨r, queue, htake, rfl, rfl⟩ | ⟨w, r, queue, f, s₂, htake, hin⟩
  · obtain ⟨-, -, htold⟩ := hs.loop.queue.takeLast_dummy htake
    refine ⟨rfl, fun e => .inl ⟨rfl, ?_⟩, fun o ho => absurd ho List.not_mem_nil⟩
    exact congrFun htold (.timer e)
  · obtain ⟨hs₁, -⟩ := takeLast_spec hs htake
    obtain ⟨-, -, -, hw, htold⟩ := hs.loop.queue.takeLast_watcher htake
    obtain ⟨hloop, hevs⟩ := evXCb_loop hin.callback
    have hother : ∀ e, w ≠ .timer e → queue.told (.timer e) = s.loop.queue.told (.timer e) := by
      intro e hne
      rw [htold, Function.update_of_ne (Ne.symm hne)]
    rw [hloop]
    have hdel := hin.deletes
    refine ⟨?_, fun e => ?_, fun o ho hto => ?_⟩
    · split at hdel
      next =>
        obtain ⟨f', x', hcalls, -⟩ := eventDel_calls hs₁ hin.event hdel
        exact hcalls.mnNow
      next => rw [hdel]
    · split at hdel
      next =>
        obtain ⟨f', x', hcalls, hview⟩ := eventDel_calls hs₁ hin.event hdel
        have hstopped : (view f' x').toActive = false := by rw [hview]; rfl
        by_cases hne : w = .timer e
        · -- the timer that was told is the one that is stopped
          rw [hcalls.face, hne]
          refine .inr ?_
          rw [show (owner (.timer e : Watcher ι)).1 = e from rfl, Function.update_self]
          exact hcalls.fits.stopped hstopped
        · rcases hcalls.timerLeft hstopped e with ⟨harmed, htold'⟩ | hnone
          · exact .inl ⟨harmed, htold'.trans (hother e hne)⟩
          · exact .inr hnone
      next hkeeps =>
        have hne : w ≠ .timer e := by
          rintro rfl
          exact hkeeps rfl
        rw [hdel]
        exact .inl ⟨rfl, hother e hne⟩
    · obtain ⟨he, hwatcher⟩ := hevs o ho
      have htimer : w = .timer o.event := by
        cases w with
        | timer e => rw [he]; rfl
        | io e => cases hwatcher.symm.trans hto
        | sig e => cases hwatcher.symm.trans hto
      rw [htimer] at hw
      change s.loop.queue.told (.timer o.event) ≠ none
      rw [hw]
      exact Option.some_ne_none r

/-- What a step that does not add the event does to its timer: it is left or stopped, unless it
is due. -/
theorem step_timers {i : EventAct ι τ} (husec : usec ≠ 0) (hkill : i.kills = false)
    (hadd : i.adds e = false) (hclock : i.forward s.loop.timers.mnNow = true) (hs : s.Sound)
    (hstep : step usec s i = some (.ok (s', evs))) :
    s.loop.timers.mnNow ≤ s'.loop.timers.mnNow ∧
      (TimerLeft (s.loop.face e) (s'.loop.face e) ∨
        ∃ a, (s.loop.face e).armed = some a ∧ a < s.loop.timers.mnNow) ∧
      ∀ o ∈ evs, o.watcher = .to → (s.loop.face o.event).toTold ≠ none := by
  have hempty : ∀ o ∈ ([] : List (Fired ι)), o.watcher = .to →
      (s.loop.face o.event).toTold ≠ none := fun o ho => absurd ho List.not_mem_nil
  cases i with
  | eventSet v fd events arg =>
      obtain ⟨rfl, -, f', x', hcalls, hview⟩ := step_eventSet hs hstep
      have hstopped : (view f' x').toActive = false := by rw [hview]; rfl
      exact ⟨hcalls.mnNow.ge, .inl (hcalls.timerLeft hstopped e), hempty⟩
  | eventAdd v tv =>
      obtain ⟨rfl, f, f', x', -, hcalls, -⟩ := step_eventAdd husec hs hstep
      have hne : e ≠ v := fun heq => of_decide_eq_false hadd heq.symm
      refine ⟨hcalls.mnNow.ge, .inl (.inl ?_), hempty⟩
      rw [hcalls.face, Function.update_of_ne hne]
      exact ⟨rfl, rfl⟩
  | eventDel v =>
      obtain ⟨rfl, f, f', x', -, hcalls, hview⟩ := step_eventDel hs hstep
      have hstopped : (view f' x').toActive = false := by rw [hview]; rfl
      exact ⟨hcalls.mnNow.ge, .inl (hcalls.timerLeft hstopped e), hempty⟩
  | evRun i =>
      obtain ⟨rfl, hi, hne, l', evs', hloop, rfl⟩ := step_evRun hkill hstep
      have hm := hs.loop.moves hloop
      refine ⟨?_, ?_, hempty⟩
      · by_cases htime : ∃ mnNow, i = .timeUpdate mnNow
        · obtain ⟨mnNow, rfl⟩ := htime
          cases hm with
          | timeUpdate => exact of_decide_eq_true hclock
        · exact (hm.mnNow fun mnNow heq => htime ⟨mnNow, heq⟩).ge
      · rcases (hm.reports hs.loop hi hne e).timer with hsame | ⟨a, ha, hlt, -⟩
        · exact .inl (.inl hsame)
        · exact .inr ⟨a, ha, hlt⟩
  | invoke pri =>
      obtain ⟨hnow, htimers, hto⟩ := invoke_timers hs hstep
      exact ⟨hnow.ge, .inl (htimers e), hto⟩

/-- The timer of an event that is not added again is not due before the time it was armed
for. -/
theorem Sound.notEarly {deadline : τ} (husec : usec ≠ 0) (hs : s.Sound)
    (htold : (s.loop.face e).toTold = none) (harmed : (s.loop.face e).armed = some deadline)
    (h : Transition.Run (step usec) (fun s i => i.kills = false ∧ i.adds e = false ∧
      i.forward s.loop.timers.mnNow = true) s tr s')
    {o : Fired ι} (ho : o ∈ tr) (he : o.event = e) (hto : o.watcher = .to) :
    deadline < s'.loop.timers.mnNow := by
  let Waits (s : EventBase ι τ) : Prop :=
    (s.loop.face e).toTold = none ∧ ∀ a, (s.loop.face e).armed = some a → a = deadline
  have hinv : s'.Sound ∧ (deadline < s'.loop.timers.mnNow ∨ Waits s' ∧
      ∀ o ∈ tr, o.event = e → o.watcher ≠ .to) := by
    refine h.invariant_trace (I := fun tr s => s.Sound ∧ (deadline < s.loop.timers.mnNow ∨
      Waits s ∧ ∀ o ∈ tr, o.event = e → o.watcher ≠ .to)) ?_ ⟨hs, .inr ⟨⟨htold, ?_⟩, ?_⟩⟩
    · rintro tr s i s' evs ⟨hs, hcases⟩ ⟨hkill, hadd, hclock⟩ hstep
      obtain ⟨hnow, htimer, hevs⟩ := step_timers husec hkill hadd hclock hs hstep
      refine ⟨(step_simulates husec hkill hs hstep).1, ?_⟩
      rcases hcases with hlate | ⟨⟨hnone, hat⟩, hquiet⟩
      · exact .inl (hlate.trans_le hnow)
      · rcases htimer with hleft | ⟨a, ha, hlt⟩
        · refine .inr ⟨?_, fun o ho heq => ?_⟩
          · rcases hleft with ⟨ha, ht⟩ | ⟨ha, ht⟩
            · exact ⟨ht.trans hnone, fun a ha' => hat a (ha.symm.trans ha')⟩
            · exact ⟨ht, fun a ha' => by cases ha.symm.trans ha'⟩
          · rcases List.mem_append.mp ho with hold | hnew
            · exact hquiet o hold heq
            · intro hto
              exact hevs o hnew hto (heq ▸ hnone)
        · refine .inl (lt_of_lt_of_le ?_ hnow)
          rwa [← hat a ha]
    · exact fun a ha => Option.some.inj (ha.symm.trans harmed)
    · exact fun o ho => absurd ho List.not_mem_nil
  rcases hinv.2 with hlate | ⟨-, hquiet⟩
  · exact hlate
  · exact absurd hto (hquiet o ho he)

/-- A timer that has just been armed is not called back before its time has passed. -/
theorem Sound.armedFor_notEarly {start after : τ} {o : Fired ι} (husec : usec ≠ 0) (hs : s.Sound)
    (harmed : ArmedFor start after (s.loop.face e))
    (h : Transition.Run (step usec) (fun s i => i.kills = false ∧ i.adds e = false ∧
      i.forward s.loop.timers.mnNow = true) s tr s')
    (ho : o ∈ tr) (he : o.event = e) (hto : o.watcher = .to) :
    start + after < s'.loop.timers.mnNow ∨ after + start < s'.loop.timers.mnNow := by
  obtain ⟨htold, hat | hat⟩ := harmed
  · exact .inl (hs.notEarly husec htold hat h ho he hto)
  · exact .inr (hs.notEarly husec htold hat h ho he hto)

/-- As long as the monotonic clock does not go back, the timeout of an event is called back only
after the time that `event_add` was given has passed, whatever else happens in between. -/
theorem timeout_notEarly {tv : τ} {o : Fired ι} (husec : usec ≠ 0)
    (h : Transition.Run (step usec) (fun _ i => i.kills = false) (init mnNow heap) tr s)
    (hadd : step usec s (.eventAdd e (some tv)) = some (.ok (s₁, evs)))
    (h' : Transition.Run (step usec) (fun s i => i.kills = false ∧ i.adds e = false ∧
      i.forward s.loop.timers.mnNow = true) s₁ tr' s')
    (ho : o ∈ tr') (he : o.event = e) (hto : o.watcher = .to) :
    s.loop.timers.mnNow + evTvGet usec tv < s'.loop.timers.mnNow ∨
      evTvGet usec tv + s.loop.timers.mnNow < s'.loop.timers.mnNow := by
  have hs := run_sound husec h
  have hs₁ := (step_simulates husec (i := .eventAdd e (some tv)) rfl hs hadd).1
  have harmed : ArmedFor s.loop.timers.mnNow (evTvGet usec tv) (s₁.loop.face e) := by
    obtain ⟨-, f, f', x', -, hcalls, -, hafter⟩ := step_eventAdd husec hs hadd
    rw [hcalls.face, Function.update_self]
    exact hafter tv rfl
  exact hs₁.armedFor_notEarly husec harmed h' ho he hto

/-- The event is set. -/
def afterSet : EventBase Nat Int × List (Fired Nat) :=
  Transition.after (step 1) (fun _ i => i.kills = false) (init 0 fun _ => ⟨0, 0⟩)
    [.eventSet 0 7 Coroutine.evRead 3]

def afterAdd : EventBase Nat Int × List (Fired Nat) :=
  Transition.after (step 1) (fun _ i => i.kills = false) afterSet.1 [.eventAdd 0 (some 5)]

/-- The time passes, and the event is called back. -/
def afterDue : EventBase Nat Int × List (Fired Nat) :=
  Transition.after (step 1) (fun s i => i.kills = false ∧ i.adds 0 = false ∧
    i.forward s.loop.timers.mnNow = true) afterAdd.1
    [.evRun (.timeUpdate 6), .evRun .timersReify, .invoke defaultPri]

theorem timeout_notEarly_afterDue :
    afterSet.1.loop.timers.mnNow + evTvGet 1 5 < afterDue.1.loop.timers.mnNow ∨
      evTvGet 1 5 + afterSet.1.loop.timers.mnNow < afterDue.1.loop.timers.mnNow := by
  have hset : Transition.Run (step 1) (fun _ i => i.kills = false) (init 0 fun _ => ⟨0, 0⟩)
      afterSet.2 afterSet.1 := Transition.run_after (by decide +kernel)
  have hadd : step 1 afterSet.1 (.eventAdd 0 (some 5)) = some (.ok (afterAdd.1, afterAdd.2)) :=
    (Transition.step_after (by decide +kernel)).2
  have htrace : afterDue.2 = [⟨0, .to, 7, Coroutine.evTimeout, 3⟩] := by decide +kernel
  have hlast : ⟨0, .to, 7, Coroutine.evTimeout, 3⟩ ∈ afterDue.2 :=
    htrace ▸ List.mem_singleton_self _
  exact timeout_notEarly (by decide) hset hadd (Transition.run_after (by decide +kernel)) hlast
    rfl rfl

/-! ## Nothing that was told is lost -/

/-- What one of the watchers of a name waits to be called back with. -/
def toldOf (x : Face τ) : Watcher ι → Option Revents
  | .io _ => x.ioTold
  | .sig _ => x.sigTold
  | .timer _ => x.toTold

omit [DecidableEq ι] [LinearOrder τ] [Add τ] [Sub τ] [Zero τ] in
theorem told_eq_toldOf (l : Loop ι τ) (w : Watcher ι) :
    l.queue.told w = toldOf (l.face (owner w).1) w := by
  cases w <;> rfl

omit [DecidableEq ι] [LinearOrder τ] [Add τ] [Sub τ] [Zero τ] in
theorem told_of_face {l l' : Loop ι τ} {w : Watcher ι}
    (hface : l'.face (owner w).1 = l.face (owner w).1) (htold : l.queue.told w ≠ none) :
    l'.queue.told w ≠ none := by
  rw [told_eq_toldOf] at htold ⊢
  rwa [hface]

omit [DecidableEq ι] [Add τ] [Sub τ] in
/-- The backend, the clock and signals take nothing back. -/
theorem toldOf_reports {x x' : Face τ} {w : Watcher ι} {f : Option EventFields} {mnNow : τ}
    (hfits : Fits f x) (hr : Face.Reports mnNow x x') (htold : toldOf x w ≠ none) :
    toldOf x' w ≠ none := by
  cases w with
  | io e =>
      change x'.ioTold ≠ none
      rcases hr.ioTold with hsame | ⟨-, r, -, hnew⟩
      · exact hsame ▸ htold
      · exact hnew ▸ Option.some_ne_none _
  | sig e =>
      change x'.sigTold ≠ none
      rcases hr.sigTold with hsame | ⟨-, hnew⟩
      · exact hsame ▸ htold
      · exact hnew ▸ Option.some_ne_none _
  | timer e =>
      change x'.toTold ≠ none
      rcases hr.timer with ⟨-, hsame⟩ | ⟨a, ha, -, hnext⟩
      · exact hsame ▸ htold
      · have hrepeat := (hfits.timer (ha ▸ Option.some_ne_none a)).2
        exact (hnext hrepeat).2 ▸ Option.some_ne_none _

/-- A slot that is taken is that of the watcher, or another. -/
theorem invoke_told {pri : Fin numpri} {w : Watcher ι} (hs : s.Sound)
    (hok : s.invoke pri = some (.ok (s', evs))) (htold : s.loop.queue.told w ≠ none) :
    s'.loop.queue.told w ≠ none ∨ ∃ o ∈ evs, o.event = (owner w).1 := by
  rcases invoke_cases hok with ⟨r, queue, htake, rfl, rfl⟩ | ⟨v, r, queue, f, s₂, htake, hin⟩
  · obtain ⟨-, -, hsame⟩ := hs.loop.queue.takeLast_dummy htake
    exact .inl (congrFun hsame w ▸ htold)
  · obtain ⟨hs₁, -⟩ := takeLast_spec hs htake
    obtain ⟨-, -, -, -, hafter⟩ := hs.loop.queue.takeLast_watcher htake
    by_cases howner : (owner v).1 = (owner w).1
    · refine .inr ?_
      obtain ⟨g, hg⟩ : ∃ g, s₂.event (owner v).1 = some g := by
        have hdel := hin.deletes
        split at hdel
        next =>
          obtain ⟨g, x', hcalls, -⟩ := eventDel_calls hs₁ hin.event hdel
          exact ⟨g, by rw [hcalls.event, Function.update_self]⟩
        next => exact ⟨f, by rw [hdel]; exact hin.event⟩
      have hcb := hin.callback
      unfold evXCb at hcb
      rw [hg] at hcb
      obtain ⟨-, rfl⟩ := Prod.mk.inj (Option.some.inj hcb)
      exact ⟨_, List.mem_singleton_self _, howner⟩
    · refine .inl ?_
      have hne : w ≠ v := fun heq => howner (heq ▸ rfl)
      have htold₁ : queue.told w ≠ none := by rwa [hafter, Function.update_of_ne hne]
      rw [(evXCb_loop hin.callback).1]
      have hdel := hin.deletes
      split at hdel
      next =>
        obtain ⟨g, x', hcalls, -⟩ := eventDel_calls hs₁ hin.event hdel
        refine told_of_face (l := { s.loop with queue }) ?_ htold₁
        rw [hcalls.face, Function.update_of_ne (Ne.symm howner)]
      next => rwa [hdel]

/-- A watcher that waits to be called back goes on to, unless its event is called back, added or
deleted. -/
theorem step_told {i : EventAct ι τ} {w : Watcher ι} (husec : usec ≠ 0) (hkill : i.kills = false)
    (hadd : i.adds (owner w).1 = false) (hdel : i.dels (owner w).1 = false) (hs : s.Sound)
    (hstep : step usec s i = some (.ok (s', evs))) (htold : s.loop.queue.told w ≠ none) :
    s'.loop.queue.told w ≠ none ∨ ∃ o ∈ evs, o.event = (owner w).1 := by
  cases i with
  | eventSet v fd events arg =>
      obtain ⟨rfl, hidle, f', x', hcalls, -⟩ := step_eventSet hs hstep
      have hne : (owner w).1 ≠ v := by
        rintro rfl
        -- the watchers of an event that is set are not pending
        refine htold ((Pendings.told_eq_none hs.loop.queue).mpr ?_)
        cases w with
        | io e => exact hidle.1.2
        | sig e => exact hidle.2.1.2
        | timer e => exact hidle.2.2.2
      refine .inl (told_of_face ?_ htold)
      rw [hcalls.face, Function.update_of_ne hne]
  | eventAdd v tv =>
      obtain ⟨rfl, f, f', x', -, hcalls, -⟩ := step_eventAdd husec hs hstep
      have hne : (owner w).1 ≠ v := fun heq => of_decide_eq_false hadd heq.symm
      refine .inl (told_of_face ?_ htold)
      rw [hcalls.face, Function.update_of_ne hne]
  | eventDel v =>
      obtain ⟨rfl, f, f', x', -, hcalls, -⟩ := step_eventDel hs hstep
      have hne : (owner w).1 ≠ v := fun heq => of_decide_eq_false hdel heq.symm
      refine .inl (told_of_face ?_ htold)
      rw [hcalls.face, Function.update_of_ne hne]
  | evRun i =>
      obtain ⟨rfl, hi, hne, l', evs', hloop, rfl⟩ := step_evRun hkill hstep
      have hreports := (hs.loop.moves hloop).reports hs.loop hi hne (owner w).1
      rw [told_eq_toldOf] at htold ⊢
      exact .inl (toldOf_reports (hs.fits _) hreports htold)
  | invoke pri => exact invoke_told hs hstep htold

/-- A watcher that was told something is called back by the time that no watcher of its priority
is pending, unless its event is added or deleted meanwhile, or another of the watchers of the
event is called back. -/
theorem told_notLost {w : Watcher ι} (husec : usec ≠ 0)
    (h : Transition.Run (step usec) (fun _ i => i.kills = false) (init mnNow heap) tr s)
    (htold : s.loop.queue.told w ≠ none)
    (h' : Transition.Run (step usec) (fun _ i => i.kills = false ∧
      i.adds (owner w).1 = false ∧ i.dels (owner w).1 = false) s tr' s')
    (hempty : s'.loop.queue.pendings (s'.loop.queue.abspri w) = []) :
    ∃ o ∈ tr', o.event = (owner w).1 := by
  have hinv : s'.Sound ∧ (s'.loop.queue.told w ≠ none ∨ ∃ o ∈ tr', o.event = (owner w).1) := by
    refine h'.invariant_trace (I := fun tr s => s.Sound ∧ (s.loop.queue.told w ≠ none ∨
      ∃ o ∈ tr, o.event = (owner w).1)) ?_ ⟨run_sound husec h, .inl htold⟩
    rintro tr s i s' evs ⟨hs, hcases⟩ ⟨hkill, hadd, hdel⟩ hstep
    refine ⟨(step_simulates husec hkill hs hstep).1, ?_⟩
    rcases hcases with hwaits | ⟨o, ho, he⟩
    · rcases step_told husec hkill hadd hdel hs hstep hwaits with hwaits' | ⟨o, ho, he⟩
      · exact .inl hwaits'
      · exact .inr ⟨o, List.mem_append_right _ ho, he⟩
    · exact .inr ⟨o, List.mem_append_left _ ho, he⟩
  obtain ⟨hs, hwaits | hcalled⟩ := hinv
  · exact absurd (hs.loop.queue.told_of_empty hempty) hwaits
  · exact hcalled

/-- The descriptor of the event was ready; its slot is taken after the clock was read. -/
def afterSlots : EventBase Nat Int × List (Fired Nat) :=
  Transition.after (step 1) (fun _ i => i.kills = false ∧ i.adds 0 = false ∧ i.dels 0 = false)
    afterCalls.1 [.evRun (.timeUpdate 4), .evRun .timersReify, .invoke defaultPri]

theorem told_notLost_afterSlots : ∃ o ∈ afterSlots.2, o.event = 0 := by
  have htold : afterCalls.1.loop.queue.told (.io 0) ≠ none := by decide +kernel
  have hempty : afterSlots.1.loop.queue.pendings (afterSlots.1.loop.queue.abspri (.io 0)) = [] := by
    decide +kernel
  exact told_notLost (w := .io 0) (by decide) afterCalls_run htold
    (Transition.run_after (by decide +kernel)) hempty

end EventBase

end BoostCoro.Libev
