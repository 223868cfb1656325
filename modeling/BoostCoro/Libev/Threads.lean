import BoostCoro.Libev.EventRuns
import BoostCoro.Coroutine.Reactor
/-!
# Coroutines over an event base

A thread of coroutines whose reactor works on an event base: the calls of
`event_set`, `event_add` and `event_del` that its steps make are calls on the base,
and `_cb_evt` runs when the base calls it. What a step asks the base for, the base
takes, and then it has of each event what the block of the event holds.
-/

namespace BoostCoro.Libev

open Coroutine (hasBit EventMask CoroId Block Obs State WaitSpec SchedInv StartsWait)

variable {τ : Type}

/-- The coroutines, and the event base of their reactor. A block of the event allocator is the
name of the event in it. -/
structure ReactorThread (τ : Type) where
  coros : State
  base : EventBase Block τ

/-- A failure of the coroutines, or of libev. -/
abbrev ThreadFault := Coroutine.Fault ⊕ Fault

/-- A step of the coroutines, of `ev_run`, or of `ev_invoke_pending`. -/
inductive ThreadAct (τ : Type) where
  | coro (a : Coroutine.Act)
  | evRun (i : LoopAct Block τ)
  | invoke (pri : Fin numpri)
  deriving DecidableEq

/-- The backend finds a descriptor unusable. -/
def ThreadAct.kills : ThreadAct τ → Bool
  | .evRun i => (EventAct.evRun i).kills
  | _ => false

/-- The monotonic clock does not go back. -/
def ThreadAct.forward [LinearOrder τ] (mnNow : τ) : ThreadAct τ → Bool
  | .evRun i => (EventAct.evRun i).forward mnNow
  | _ => true

/-- Callbacks are made by libev, not by the user. -/
def isFire : Coroutine.Act → Bool
  | .user (.fire _ _ _) => true
  | _ => false

namespace EventBase

variable {ι : Type} [DecidableEq ι] [LinearOrder τ] [Add τ] [Sub τ] [Zero τ]

/-- One call of `event.c` after the other. -/
def serve (usec : τ) (s : EventBase ι τ) :
    List (EventAct ι τ) → Option (Except Fault (EventBase ι τ))
  | [] => some (.ok s)
  | i :: is =>
    match s.step usec i with
    | none => none
    | some (.error fault) => some (.error fault)
    | some (.ok (s, _)) => s.serve usec is

end EventBase

namespace ReactorThread

/-- `timeval tv = {timeout / 1000, (timeout % 1000) * 1000}`, as a time; `stamp` is the sum of
`ev_tv_get`. -/
def millis (stamp : Int → Int → τ) (timeout : Int) : τ :=
  stamp (timeout.tdiv 1000) (timeout.tmod 1000 * 1000)

/-- The `event_set` and `event_add` of a wait. -/
def setsUp (stamp : Int → Int → τ) (c : CoroId) (b : Block) :
    WaitSpec → List (EventAct Block τ)
  | .io fd mask timeout =>
    [.eventSet b fd mask c,
      .eventAdd b (if timeout > 0 then some (millis stamp timeout) else none)]
  | .timeout timeout => [.eventSet b (-1) 0 c, .eventAdd b (some (millis stamp timeout))]
  | .signal signal =>
    [.eventSet b signal (Coroutine.evSignal ||| Coroutine.evPersist) c, .eventAdd b none]

/-- The calls of `event.c` that a step of the coroutines makes. -/
def eventCalls (stamp : Int → Int → τ) (s : State) : Coroutine.Act → List (EventAct Block τ)
  | .user (.setIo fd mask timeout coro) =>
    match coro.or s.currentCoroutine with
    | none => []
    | some c =>
      match s.reactor.triggers c with
      | some _ => []
      | none => setsUp stamp c s.reactor.malloc.1 (.io fd mask timeout)
  | .user (.setTimeout timeout coro) =>
    if timeout ≤ 0 then []
    else
      match coro.or s.currentCoroutine with
      | none => []
      | some c => setsUp stamp c s.reactor.malloc.1 (.timeout timeout)
  | .user (.setSignal signal coro) =>
    match coro.or s.currentCoroutine with
    | none => []
    | some c => setsUp stamp c s.reactor.malloc.1 (.signal signal)
  | .user (.cancel coro) =>
    match coro.or s.currentCoroutine with
    | none => []
    | some c =>
      match s.reactor.triggers c with
      | some (some b) => [.eventDel b]
      | _ => []
  | .lib =>
    match s.stack s.running with
    | .wait _ spec b :: _ => if spec.persists then [] else [.eventDel b]
    | _ => []
  | _ => []

/-- `_cb_evt`, called by libev. The block holds what libev left of the event. -/
def callback (s : ReactorThread τ) (base : EventBase Block τ) (o : Fired Block) :
    Except ThreadFault (ReactorThread τ × List Obs) :=
  let event := Function.update s.coros.reactor.event o.event (base.events o.event)
  let reactor := { s.coros.reactor with event }
  match ({ s.coros with reactor } : State).cbEvt o.revents o.arg with
  | .error fault => .error (.inl fault)
  | .ok coros =>
    .ok (⟨coros, base⟩, .fired o.event o.fd o.revents o.arg :: s.coros.wokenBy .evet o.arg)

variable [LinearOrder τ] [Add τ] [Sub τ] [Zero τ]

def init (mnNow : τ) (heap : Nat → Anhe Block τ) : ReactorThread τ where
  coros := .init
  base := .init mnNow heap

/-- The steps of a thread. The loop is run by user code, so its callbacks are. -/
def step (usec : τ) (stamp : Int → Int → τ) :
    Transition.StepFn (ReactorThread τ) (ThreadAct τ) ThreadFault Obs := fun s i =>
  match i with
  | .coro a =>
    if isFire a then none
    else
      match s.coros.step a with
      | none => none
      | some (.error fault) => some (.error (.inl fault))
      | some (.ok (coros, obs)) =>
        match s.base.serve usec (eventCalls stamp s.coros a) with
        | none => none
        | some (.error fault) => some (.error (.inr fault))
        | some (.ok base) => some (.ok (⟨coros, base⟩, obs))
  | .evRun i =>
    match s.base.step usec (.evRun i) with
    | none => none
    | some (.error fault) => some (.error (.inr fault))
    | some (.ok (base, _)) => some (.ok ({ s with base }, []))
  | .invoke pri =>
    if s.coros.inUserCode then
      match s.base.invoke pri with
      | none => none
      | some (.error fault) => some (.error (.inr fault))
      | some (.ok (base, [])) => some (.ok ({ s with base }, []))
      | some (.ok (base, o :: _)) => some (s.callback base o)
    else none

/-! ## Two tables of events -/

section Agrees

variable {t a : Block → Option Coroutine.Event} {b : Block} {ev : Coroutine.Event}

omit [LinearOrder τ] [Add τ] [Sub τ] [Zero τ]

/-- A block holds what the base has of its event; of a block that holds no event the base has no
active watcher. -/
def Agrees (t a : Block → Option Coroutine.Event) : Prop :=
  ∀ b, (∀ ev, t b = some ev → a b = some ev) ∧ (t b = none → Quiet a b)

theorem Agrees.update (h : Agrees t a) (b : Block) (ev : Coroutine.Event) :
    Agrees (Function.update t b (some ev)) (Function.update a b (some ev)) := by
  intro b'
  by_cases hb : b' = b
  · rw [hb, Function.update_self, Function.update_self]
    exact ⟨fun _ h => h, fun h => by cases h⟩
  · rw [Function.update_of_ne hb, Function.update_of_ne hb]
    refine ⟨(h b').1, fun hnone ev' hev' => (h b').2 hnone ev' ?_⟩
    rwa [Function.update_of_ne hb] at hev'

/-- A block whose event has no active watcher may be freed. -/
theorem Agrees.free (h : Agrees t a) (hb : Quiet a b) : Agrees (Function.update t b none) a := by
  intro b'
  by_cases heq : b' = b
  · rw [heq, Function.update_self]
    exact ⟨fun _ h => (by cases h), fun _ => hb⟩
  · rw [Function.update_of_ne heq]
    exact h b'

theorem mayFire_active {revents : EventMask} {watcher : Coroutine.Watcher}
    (h : ev.mayFire revents watcher = true) : ev.iosigActive = true ∨ ev.toActive = true := by
  cases watcher with
  | iosig => exact .inl (Bool.and_eq_true_iff.mp h).1
  | «to» => exact .inr (Bool.and_eq_true_iff.mp h).1

/-- An event that the base may call back is held by its block. -/
theorem Agrees.mayFire (h : Agrees t a) {revents : EventMask} {watcher : Coroutine.Watcher}
    (hb : a b = some ev) (hmay : ev.mayFire revents watcher = true) : t b = some ev := by
  cases ht : t b with
  | none =>
      obtain ⟨hio, hto⟩ := (h b).2 ht ev hb
      rcases mayFire_active hmay with hon | hon
      · rw [hio] at hon
        cases hon
      · rw [hto] at hon
        cases hon
  | some ev' => exact ((h b).1 ev' ht).symm.trans hb

end Agrees

end ReactorThread

/-! ## The calls of event.c -/

namespace EventBase

variable {ι : Type} [DecidableEq ι] [LinearOrder τ] [Add τ] [Sub τ] [Zero τ]
  {s s' : EventBase ι τ} {usec : τ} {e : ι} {a : ι → Option Coroutine.Event}

omit [DecidableEq ι] [Add τ] [Sub τ] in
/-- The watchers of an event that is quiet are neither active nor pending. -/
theorem Sound.idle_of_quiet (hs : s.Sound) (hq : Quiet s.events e) : Idle s.loop e := by
  have hfits := hs.fits e
  have hoff : (s.loop.face e).ioActive = false ∧ (s.loop.face e).sigActive = false ∧
      (s.loop.face e).armed = none := by
    cases hf : s.event e with
    | none =>
        rw [hf] at hfits
        refine ⟨Bool.eq_false_iff.mpr fun hon => ?_, Bool.eq_false_iff.mpr fun hon => ?_, ?_⟩
        · obtain ⟨f, hnone, -⟩ := hfits.io hon
          cases hnone
        · obtain ⟨f, hnone, -⟩ := hfits.sig hon
          cases hnone
        · by_contra hon
          exact (hfits.timer hon).1 rfl
    | some f =>
        obtain ⟨hiosig, hto⟩ := hq (view f (s.loop.face e)) (congrArg (view? · _) hf)
        obtain ⟨hio, hsig⟩ := Bool.or_eq_false_iff.mp hiosig
        rw [hf] at hfits
        exact ⟨hio, hsig, (hfits.stopped hto).1⟩
  obtain ⟨hio, hsig, harmed⟩ := hoff
  have hpending : ∀ {w}, s.loop.queue.told w = none → s.loop.queue.pending w = 0 := fun h =>
    (Pendings.told_eq_none hs.loop.queue).mp h
  refine ⟨⟨?_, hpending ?_⟩, ⟨?_, hpending ?_⟩, Timers.armed_eq_none.mp harmed, hpending ?_⟩
  · exact not_not.mp fun hne => Bool.false_ne_true (hio.symm.trans (bne_iff_ne.mpr hne))
  · refine Option.eq_none_iff_forall_ne_some.mpr fun r hr => ?_
    exact Bool.false_ne_true (hio.symm.trans (hfits.ioTold r hr).1)
  · exact not_not.mp fun hne => Bool.false_ne_true (hsig.symm.trans (bne_iff_ne.mpr hne))
  · refine Option.eq_none_iff_forall_ne_some.mpr fun r hr => ?_
    exact Bool.false_ne_true (hsig.symm.trans (hfits.sigTold r hr).1)
  · exact Option.eq_none_iff_forall_ne_some.mpr fun r hr => (hfits.toTold r hr).1 harmed

/-- The base takes the calls, and if libev does not fail they leave the events `a`. -/
structure Serves (usec : τ) (s : EventBase ι τ) (is : List (EventAct ι τ))
    (a : ι → Option Coroutine.Event) : Prop where
  taken : s.serve usec is ≠ none
  leaves : ∀ s', s.serve usec is = some (.ok s') → s'.Sound ∧ s'.events = a

theorem Sound.serves_nil (hs : s.Sound) : Serves usec s [] s.events where
  taken := Option.some_ne_none _
  leaves := by
    intro s' h
    obtain rfl := Except.ok.inj (Option.some.inj h)
    exact ⟨hs, rfl⟩

/-- A call that is taken, and then the others. -/
theorem Serves.cons {i : EventAct ι τ} {is : List (EventAct ι τ)} (hstep : s.step usec i ≠ none)
    (hrest : ∀ s₁ evs, s.step usec i = some (.ok (s₁, evs)) → Serves usec s₁ is a) :
    Serves usec s (i :: is) a := by
  cases hx : s.step usec i with
  | none => exact absurd hx hstep
  | some x =>
      cases x with
      | error fault =>
          have hserve : s.serve usec (i :: is) = some (.error fault) := by
            rw [serve, hx]
          exact ⟨hserve ▸ Option.some_ne_none _, fun s' h => by cases hserve.symm.trans h⟩
      | ok q =>
          have hserve : s.serve usec (i :: is) = q.1.serve usec is := by
            rw [serve, hx]
          obtain ⟨htaken, hleaves⟩ := hrest q.1 q.2 hx
          exact ⟨hserve ▸ htaken, fun s' h => hleaves s' (hserve ▸ h)⟩

theorem Sound.serves_del (hs : s.Sound) {ev : Coroutine.Event} (hev : s.events e = some ev) :
    Serves usec s [.eventDel e] (Function.update s.events e (some ev.del)) := by
  obtain ⟨f, hf, rfl⟩ := Option.map_eq_some_iff.mp hev
  refine .cons ?_ fun s₁ evs hstep => ?_
  · simp only [step, hf]
    exact Option.some_ne_none _
  · obtain ⟨-, f', g, x', he, hcalls, hview⟩ := step_eventDel hs hstep
    obtain rfl := Option.some.inj (hf.symm.trans he)
    obtain ⟨hsound, hevents⟩ := hcalls.spec hs
    have hnew : view? (some g) x' = some (view f (s.loop.face e)).del := congrArg some hview
    rw [hnew] at hevents
    exact hevents ▸ hsound.serves_nil

theorem Sound.serves_add (husec : usec ≠ 0) (hs : s.Sound) {ev : Coroutine.Event}
    (hev : s.events e = some ev) (tv : Option τ) :
    Serves usec s [.eventAdd e tv] (Function.update s.events e (some (ev.add tv.isSome))) := by
  obtain ⟨f, hf, rfl⟩ := Option.map_eq_some_iff.mp hev
  refine .cons ?_ fun s₁ evs hstep => ?_
  · simp only [step, hf]
    exact Option.some_ne_none _
  · obtain ⟨-, f', g, x', he, hcalls, hview, -⟩ := step_eventAdd husec hs hstep
    obtain rfl := Option.some.inj (hf.symm.trans he)
    obtain ⟨hsound, hevents⟩ := hcalls.spec hs
    have hnew : view? (some g) x' = some ((view f (s.loop.face e)).add tv.isSome) :=
      congrArg some hview
    rw [hnew] at hevents
    exact hevents ▸ hsound.serves_nil

/-- `event_set` and `event_add` in memory that no watcher uses. -/
theorem Sound.serves_setAdd (husec : usec ≠ 0) (hs : s.Sound) (hq : Quiet s.events e) (fd : Int)
    (mask : EventMask) (arg : CoroId) (tv : Option τ) :
    Serves usec s [.eventSet e fd mask arg, .eventAdd e tv] (Function.update s.events e
      (some ((Coroutine.Event.set fd mask arg).add tv.isSome))) := by
  refine .cons ?_ fun s₁ evs hstep => ?_
  · simp only [step, if_pos (hs.idle_of_quiet hq)]
    exact Option.some_ne_none _
  · obtain ⟨-, -, f, x', hcalls, hview⟩ := step_eventSet hs hstep
    obtain ⟨hsound, hevents⟩ := hcalls.spec hs
    have hnew : view? (some f) x' = some (Coroutine.Event.set fd mask arg) := congrArg some hview
    rw [hnew] at hevents
    have hserves := hsound.serves_add husec (e := e)
      (by rw [hevents, Function.update_self]) tv
    rwa [hevents, Function.update_idem] at hserves

theorem serve_cons_ok {i : EventAct ι τ} {is : List (EventAct ι τ)}
    (h : s.serve usec (i :: is) = some (.ok s')) :
    ∃ s₁ evs, s.step usec i = some (.ok (s₁, evs)) ∧ s₁.serve usec is = some (.ok s') := by
  rw [serve] at h
  split at h
  next => cases h
  next => cases h
  next s₁ evs hstep => exact ⟨s₁, evs, hstep, h⟩

/-- The calls are steps of the base. -/
theorem serve_run {ok : EventBase ι τ → EventAct ι τ → Prop} {is : List (EventAct ι τ)}
    (hok : ∀ s, ∀ i ∈ is, ok s i) (h : s.serve usec is = some (.ok s')) :
    ∃ evs, Transition.Run (step usec) ok s evs s' := by
  induction is generalizing s with
  | nil =>
      obtain rfl := Except.ok.inj (Option.some.inj h)
      exact ⟨[], .refl⟩
  | cons i is ih =>
      obtain ⟨s₁, evs₁, hstep, hrest⟩ := serve_cons_ok h
      obtain ⟨evs, hrun⟩ := ih (fun s j hj => hok s j (List.mem_cons_of_mem _ hj)) hrest
      have hfirst := Transition.Run.single (hok s i List.mem_cons_self) hstep
      exact ⟨evs₁ ++ evs, hfirst.trans hrun⟩

/-- An event that was set and added waits for its time from now on. -/
theorem Sound.armed_setAdd {fd : Int} {mask : EventMask} {arg : CoroId} {tv : τ}
    (husec : usec ≠ 0) (hs : s.Sound)
    (h : s.serve usec [.eventSet e fd mask arg, .eventAdd e (some tv)] = some (.ok s')) :
    ArmedFor s.loop.timers.mnNow (evTvGet usec tv) (s'.loop.face e) := by
  obtain ⟨s₁, evs₁, hset, hrest⟩ := serve_cons_ok h
  obtain ⟨s₂, evs₂, hadd, hlast⟩ := serve_cons_ok hrest
  obtain rfl := Except.ok.inj (Option.some.inj hlast)
  obtain ⟨-, -, f, x, hcalls, -⟩ := step_eventSet hs hset
  obtain ⟨-, f₁, f₂, x', -, hcalls', -, hafter⟩ := step_eventAdd husec (hcalls.spec hs).1 hadd
  rw [hcalls'.face, Function.update_self, ← hcalls.mnNow]
  exact hafter tv rfl

end EventBase

namespace ReactorThread

variable {stamp : Int → Int → τ} {s s' : State} {a : Coroutine.Act} {obs : List Obs}
  {t t' : Block → Option Coroutine.Event}

/-! ## What a step of the coroutines asks for -/

/-- The calls of a step, and what it makes of the events in the blocks; `new` is the block that
`malloc` gives next. -/
inductive Asks (stamp : Int → Int → τ) (new : Block) (t : Block → Option Coroutine.Event) :
    List (EventAct Block τ) → (Block → Option Coroutine.Event) → Prop
  | nothing : Asks stamp new t [] t
  | sets {c : CoroId} {spec : WaitSpec} (hnew : t new = none) :
      Asks stamp new t (setsUp stamp c new spec) (Function.update t new (some (spec.newEvent c)))
  | dels {b : Block} {ev : Coroutine.Event} (hb : t b = some ev) :
      Asks stamp new t [.eventDel b] (Function.update t b (some ev.del))
  | frees {b : Block} {ev : Coroutine.Event} (hb : t b = some ev) :
      Asks stamp new t [.eventDel b] (Function.update t b none)

/-- The time that a wait is limited to, in milliseconds. -/
def timeLimit : WaitSpec → Option Int
  | .io _ _ timeout => if timeout > 0 then some timeout else none
  | .timeout timeout => some timeout
  | .signal _ => none

variable (stamp) in
/-- A wait makes the two calls, with its time limit. -/
theorem setsUp_eq (c : CoroId) (b : Block) (spec : WaitSpec) : ∃ fd mask,
    setsUp stamp c b spec =
      [.eventSet b fd mask c, .eventAdd b ((timeLimit spec).map (millis stamp))] ∧
      spec.newEvent c = (Coroutine.Event.set fd mask c).add (timeLimit spec).isSome := by
  cases spec with
  | io fd mask timeout =>
      by_cases hpos : timeout > 0
      · refine ⟨fd, mask, ?_, ?_⟩
        · simp only [setsUp, timeLimit, if_pos hpos, Option.map_some]
        · simp only [timeLimit, if_pos hpos, WaitSpec.newEvent, decide_eq_true hpos,
            Option.isSome_some]
      · refine ⟨fd, mask, ?_, ?_⟩
        · simp only [setsUp, timeLimit, if_neg hpos, Option.map_none]
        · simp only [timeLimit, if_neg hpos, WaitSpec.newEvent, decide_eq_false hpos,
            Option.isSome_none]
  | timeout timeout => exact ⟨-1, 0, rfl, rfl⟩
  | signal signal => exact ⟨signal, Coroutine.evSignal ||| Coroutine.evPersist, rfl, rfl⟩

/-- The calls of a step add no event but the one in the new block. -/
theorem Asks.calls [LinearOrder τ] {new b : Block} {calls : List (EventAct Block τ)}
    (h : Asks stamp new t calls t') (hb : b ≠ new) {i : EventAct Block τ} (hi : i ∈ calls)
    (mnNow : τ) : i.kills = false ∧ i.adds b = false ∧ i.forward mnNow = true := by
  cases h with
  | nothing => cases hi
  | @sets c spec =>
      obtain ⟨fd, mask, hcalls, -⟩ := setsUp_eq stamp c new spec
      rw [hcalls] at hi
      simp only [List.mem_cons, List.not_mem_nil, or_false] at hi
      rcases hi with rfl | rfl
      · exact ⟨rfl, rfl, rfl⟩
      · exact ⟨rfl, decide_eq_false hb.symm, rfl⟩
  | dels =>
      obtain rfl := List.mem_singleton.mp hi
      exact ⟨rfl, rfl, rfl⟩
  | frees =>
      obtain rfl := List.mem_singleton.mp hi
      exact ⟨rfl, rfl, rfl⟩

theorem callWait_began {c : CoroId} {spec : WaitSpec} {b : Block} {r : Coroutine.Coreactor}
    (h : s.callWait c spec b r = .ok (s', obs)) : .waitBegan c spec b ∈ obs := by
  obtain ⟨⟨s₁, obs₁⟩, -, h⟩ := Fallible.bind_eq_ok.mp h
  obtain ⟨-, rfl⟩ := Prod.mk.inj (Except.ok.inj h)
  exact List.mem_cons_self

/-- A step that does nothing to the reactor makes no call. -/
theorem eventCalls_still (hstep : s.step a = some (.ok (s', obs)))
    (hstill : ∀ o ∈ obs, o.reacts = false) : eventCalls stamp s a = [] := by
  have hwait : ∀ {s₁ : State} {c spec b r}, s₁.callWait c spec b r ≠ .ok (s', obs) := by
    intro s₁ c spec b r hcall
    cases hstill _ (callWait_began hcall)
  cases a with
  | lib =>
      obtain ⟨-, top, rest, htop, hframe⟩ := State.step_lib_inv hstep
      simp only [eventCalls, htop]
      cases top with
      | wait c spec b =>
          rcases Bool.eq_false_or_eq_true spec.persists with hpersist | hpersist
          · simp only [hpersist, if_true]
          · simp only [State.stepFrame, State.waitEnd, hpersist] at hframe
            obtain ⟨r, -, hend⟩ := Fallible.bind_eq_ok.mp hframe
            obtain ⟨-, rfl⟩ := Prod.mk.inj (Except.ok.inj hend)
            cases hstill _ List.mem_cons_self
      | _ => rfl
  | user u =>
      have hcall := (State.step_user_inv hstep).2
      cases u with
      | setIo fd mask timeout coro =>
          obtain ⟨c, -, h⟩ := Fallible.bind_eq_ok.mp (Option.some.inj hcall)
          obtain ⟨s₁, -, h⟩ := Fallible.bind_eq_ok.mp h
          obtain ⟨⟨b, r⟩, -, h⟩ := Fallible.bind_eq_ok.mp h
          exact absurd h hwait
      | setTimeout timeout coro =>
          simp only [State.stepUser, State.setTimeout, Option.some.injEq] at hcall
          split at hcall
          next hle => simp only [eventCalls, if_pos hle]
          next =>
            obtain ⟨c, -, h⟩ := Fallible.bind_eq_ok.mp hcall
            obtain ⟨s₁, -, h⟩ := Fallible.bind_eq_ok.mp h
            exact absurd h hwait
      | setSignal signal coro =>
          obtain ⟨c, -, h⟩ := Fallible.bind_eq_ok.mp (Option.some.inj hcall)
          obtain ⟨s₁, -, h⟩ := Fallible.bind_eq_ok.mp h
          exact absurd h hwait
      | cancel coro =>
          simp only [State.stepUser, State.cancel, Option.some.injEq] at hcall
          simp only [eventCalls]
          cases hc : coro.or s.currentCoroutine with
          | none => rfl
          | some c =>
              cases htrigger : s.reactor.triggers c with
              | none => simp only [htrigger]
              | some ptr =>
                  simp only [hc, htrigger] at hcall
                  obtain ⟨s₁, -, h⟩ := Fallible.bind_eq_ok.mp hcall
                  obtain ⟨s₂, -, h⟩ := Fallible.bind_eq_ok.mp h
                  obtain ⟨r, -, h⟩ := Fallible.bind_eq_ok.mp h
                  obtain ⟨-, rfl⟩ := Prod.mk.inj (Except.ok.inj h)
                  cases hstill _ (List.mem_append_right _ List.mem_cons_self)
      | _ => rfl

/-- A wait sets its event up in a new block, unless it is `set_io` for a coroutine that has a
trigger. -/
theorem eventCalls_setsUp {u : Coroutine.User} {c : CoroId} {spec : WaitSpec} {b : Block}
    {r : Coroutine.Coreactor} (hinv : SchedInv s.toSched) (h : StartsWait s u c spec b r)
    (hfree : s.reactor.triggers c = none ∨ ∀ fd mask timeout, spec ≠ .io fd mask timeout) :
    eventCalls stamp s (.user u) = setsUp stamp c s.reactor.malloc.1 spec := by
  cases h with
  | io hc =>
      simp only [eventCalls, hinv.current, hc, hfree.resolve_right fun hne => hne _ _ _ rfl]
  | timeout hc hpos => simp only [eventCalls, hinv.current, hc, if_neg (Int.not_le.mpr hpos)]
  | signal hc => simp only [eventCalls, hinv.current, hc]

theorem eventCalls_begins {u : Coroutine.User} {c : CoroId} {spec : WaitSpec} {b : Block}
    {r : Coroutine.Coreactor} (hinv : SchedInv s.toSched)
    (hfresh : s.reactor.event s.reactor.malloc.1 = none)
    (h : StartsWait s u c spec b r) :
    Asks stamp s.reactor.malloc.1 s.reactor.event (eventCalls stamp s (.user u)) r.event := by
  cases htrigger : s.reactor.triggers c with
  | none =>
      obtain ⟨hb, hr⟩ := h.free htrigger
      rw [eventCalls_setsUp hinv h (.inl htrigger), hr, hb]
      exact .sets hfresh
  | some ptr =>
      obtain ⟨hb, ⟨⟨fd, mask, timeout, hspec⟩, hr⟩ | ⟨hspec, hr⟩⟩ := h.taken htrigger
      · -- the new block is given back
        have hsame : r.event = s.reactor.event := by
          rw [hr, hb]
          exact Function.update_eq_self_iff.mpr hfresh.symm
        have hcalls : eventCalls stamp s (.user u) = [] := by
          cases h with
          | io hc => simp only [eventCalls, hinv.current, hc, htrigger]
          | timeout => cases hspec
          | signal => cases hspec
        rw [hcalls, hsame]
        exact .nothing
      · rw [eventCalls_setsUp hinv h (.inr hspec), hr, hb]
        exact .sets hfresh

variable (stamp) in
/-- What a step of the coroutines asks the base for is what it does to the events in the
blocks. -/
theorem eventCalls_asks (hinv : SchedInv s.toSched)
    (hfresh : s.reactor.event s.reactor.malloc.1 = none)
    (hfire : isFire a = false) (hstep : s.step a = some (.ok (s', obs))) :
    Asks stamp s.reactor.malloc.1 s.reactor.event (eventCalls stamp s a) s'.reactor.event := by
  cases hinv.reacts (hinv.effect hstep) with
  | still _ hr hstill =>
      rw [eventCalls_still hstep hstill, hr]
      exact .nothing
  | begins hstarts => exact eventCalls_begins hinv hfresh hstarts
  | @ends w _ _ htop _ _ hreactor =>
      simp only [eventCalls, htop]
      rcases hreactor with ⟨hpersist, hr⟩ | ⟨hpersist, hrelease⟩
      · rw [if_pos hpersist, hr]
        exact .nothing
      · obtain ⟨ev, hev, -, hr⟩ := Coroutine.Coreactor.release_ok hrelease
        rw [hpersist, hr]
        exact .frees hev
  | fires => cases hfire
  | cancels hc htrigger hev _ hr =>
      simp only [eventCalls, hinv.current, hc, htrigger]
      rw [hr]
      exact .dels hev

section

variable [LinearOrder τ] [Add τ] [Sub τ] [Zero τ] {base : EventBase Block τ} {usec : τ}
  {calls : List (EventAct Block τ)} {b : Block}

theorem serves_setsUp (husec : usec ≠ 0) (hs : base.Sound) (hq : Quiet base.events b)
    (c : CoroId) (spec : WaitSpec) :
    base.Serves usec (setsUp stamp c b spec)
      (Function.update base.events b (some (spec.newEvent c))) := by
  obtain ⟨fd, mask, hcalls, hnew⟩ := setsUp_eq stamp c b spec
  rw [hcalls, hnew, ← Option.isSome_map]
  exact hs.serves_setAdd husec hq fd mask c _

/-- The base takes what is asked for, and then it agrees with the blocks again. -/
theorem Asks.served (h : Asks stamp b t calls t') (husec : usec ≠ 0) (hs : base.Sound)
    (hagrees : Agrees t base.events) : ∃ a, base.Serves usec calls a ∧ Agrees t' a := by
  cases h with
  | nothing => exact ⟨_, hs.serves_nil, hagrees⟩
  | @sets c spec hb =>
      exact ⟨_, serves_setsUp husec hs ((hagrees b).2 hb) c spec, hagrees.update b _⟩
  | @dels b ev hb =>
      exact ⟨_, hs.serves_del ((hagrees b).1 ev hb), hagrees.update b _⟩
  | @frees b ev hb =>
      have hev := (hagrees b).1 ev hb
      have hfreed := (hagrees.update b ev.del).free (hs.quiet_del hev)
      rw [Function.update_idem] at hfreed
      exact ⟨_, hs.serves_del hev, hfreed⟩

end

end ReactorThread

end BoostCoro.Libev
