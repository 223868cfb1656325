import BoostCoro.Libev.Event
/-!
# What the calls of `event.c` do

What each call does to the event and the watchers of its name: `event_set`,
`event_add` and `event_del` are those of the events of the reactor, a callback is
one that `Event.mayFire` allows, and what the backend, the clock and signals do
cannot be seen.
-/

namespace BoostCoro.Libev

open Coroutine (hasBit EventMask CoroId)

variable {ι τ : Type} [DecidableEq ι] [LinearOrder τ] [Add τ] [Sub τ] [Zero τ]

/-! ## What the calls of the loop do to a face -/

namespace Loop

variable {l l' : Loop ι τ} {e : ι}

/-- A step that does not call back, as a call of its function. -/
theorem Sound.call {x : Except Fault (Loop ι τ)} {i : LoopAct ι τ} (h : l.Sound)
    (hi : Loop.step l i = some (x.map (·, []))) (hclock : ∀ mnNow, i ≠ .timeUpdate mnNow)
    (hok : x = .ok l') :
    l'.Sound ∧ l'.timers.mnNow = l.timers.mnNow ∧ Moves l i l' [] := by
  subst hok
  exact ⟨h.step hi, (h.moves hi).mnNow hclock, h.moves hi⟩

theorem Sound.evIoStart_face (h : l.Sound) (hw : l.fds.active e = 0)
    (hok : l.evIoStart e = .ok l') :
    l'.Sound ∧ l'.timers.mnNow = l.timers.mnNow ∧ l'.face = Function.update l.face e
      { l.face e with ioActive := true, events := (l.face e).events &&& ~~~evIofdset } := by
  obtain ⟨hs, hnow, hm⟩ := h.call (i := .evIoStart e) rfl (by simp) hok
  refine ⟨hs, hnow, ?_⟩
  cases hm with
  | ioStarted hon => exact absurd hw hon
  | ioStarts => exact face_ioStart l e _

theorem Sound.evIoStop_face (h : l.Sound) (hok : l.evIoStop e = .ok l') :
    l'.Sound ∧ l'.timers.mnNow = l.timers.mnNow ∧ l'.face = Function.update l.face e
      { l.face e with ioActive := false, ioTold := none } := by
  obtain ⟨hs, hnow, hm⟩ := h.call (i := .evIoStop e) rfl (by simp) hok
  refine ⟨hs, hnow, ?_⟩
  cases hm with
  | ioStopped hw =>
      have hoff : (l.face e).ioActive = false := by simp [face, hw]
      rw [face_clearPending_io h.queue, ← hoff]
  | ioStops => exact face_ioStop h.queue e _

theorem Sound.evSignalStart_face (h : l.Sound) (hw : l.signals.active e = 0)
    (hok : l.evSignalStart e = .ok l') :
    l'.Sound ∧ l'.timers.mnNow = l.timers.mnNow ∧
      l'.face = Function.update l.face e { l.face e with sigActive := true } := by
  obtain ⟨hs, hnow, hm⟩ := h.call (i := .evSignalStart e) rfl (by simp) hok
  refine ⟨hs, hnow, ?_⟩
  cases hm with
  | sigStarted hon => exact absurd hw hon
  | sigStarts => exact face_sigStart l e _

theorem Sound.evSignalStop_face (h : l.Sound) (e : ι) :
    (l.evSignalStop e).Sound ∧ (l.evSignalStop e).timers.mnNow = l.timers.mnNow ∧
      (l.evSignalStop e).face = Function.update l.face e
        { l.face e with sigActive := false, sigTold := none } := by
  have hm := h.moves (i := .evSignalStop e) rfl
  refine ⟨hm.sound h, hm.mnNow (by simp), ?_⟩
  generalize l.evSignalStop e = l' at hm
  cases hm with
  | sigStopped hw =>
      have hoff : (l.face e).sigActive = false := by simp [face, hw]
      rw [face_clearPending_sig h.queue, ← hoff]
  | sigStops => exact face_sigStop h.queue e _

theorem Sound.evTimerAgain_face (h : l.Sound) (hok : l.evTimerAgain e = .ok l') :
    l'.Sound ∧ l'.timers.mnNow = l.timers.mnNow ∧ ∃ g, Again l.timers e g ∧
      l'.face = Function.update l.face e { l.face e with armed := g, toTold := none } := by
  obtain ⟨hs, hnow, hm⟩ := h.call (i := .evTimerAgain e) rfl (by simp) hok
  refine ⟨hs, hnow, ?_⟩
  cases hm with
  | timerAgain hg hre => exact ⟨_, hg, face_rearms h.queue hre⟩

theorem Sound.evTimerStop_face (h : l.Sound) (hok : l.evTimerStop e = .ok l') :
    l'.Sound ∧ l'.timers.mnNow = l.timers.mnNow ∧ l'.face = Function.update l.face e
      { l.face e with armed := none, toTold := none } := by
  obtain ⟨hs, hnow, hm⟩ := h.call (i := .evTimerStop e) rfl (by simp) hok
  refine ⟨hs, hnow, ?_⟩
  cases hm with
  | timerStops hre => exact face_rearms h.queue hre

end Loop

namespace EventBase

variable {s s' : EventBase ι τ} {l l' : Loop ι τ} {e : ι} {f f' : EventFields} {x x' : Face τ}
variable {usec : τ}

/-! ## What is true of one event -/

/-- The event of the reactor that an event with these watchers is. -/
def view (f : EventFields) (x : Face τ) : Coroutine.Event where
  evFd := f.evFd
  evEvents := f.evEvents
  evArg := f.evArg
  iosigActive := x.ioActive || x.sigActive
  toActive := x.armed.isSome
  active := f.evFlags &&& evlistActive != 0

def view? (f : Option EventFields) (x : Face τ) : Option Coroutine.Event := f.map (view · x)

/-- The events of an event base. -/
def events (s : EventBase ι τ) (e : ι) : Option Coroutine.Event :=
  view? (s.event e) (s.loop.face e)

/-- The watchers that are active are those that `event_add` starts, and those that wait to be
called back are active and were told what they are for. -/
structure Fits (f : Option EventFields) (x : Face τ) : Prop where
  io : x.ioActive = true → ∃ f', f = some f' ∧ hasBit f'.evEvents Coroutine.evSignal = false ∧
    hasBit f'.evEvents (Coroutine.evRead ||| Coroutine.evWrite) = true ∧
    x.events = (f'.evEvents &&& (Coroutine.evRead ||| Coroutine.evWrite)).setWidth 32
  sig : x.sigActive = true → ∃ f', f = some f' ∧ hasBit f'.evEvents Coroutine.evSignal = true
  timer : x.armed ≠ none → f ≠ none ∧ x.evRepeat ≠ 0
  ioTold : ∀ r, x.ioTold = some r → x.ioActive = true ∧ r ≠ 0 ∧ r &&& x.events = r
  sigTold : ∀ r, x.sigTold = some r → x.sigActive = true ∧ r = evSignal
  toTold : ∀ r, x.toTold = some r → x.armed ≠ none ∧ r = evTimer

structure Sound (s : EventBase ι τ) : Prop where
  loop : s.loop.Sound
  fits : ∀ e, Fits (s.event e) (s.loop.face e)

/-- A call that is about one event. -/
structure Calls (s s' : EventBase ι τ) (e : ι) (f' : Option EventFields) (x' : Face τ) : Prop where
  sound : s'.loop.Sound
  mnNow : s'.loop.timers.mnNow = s.loop.timers.mnNow
  face : s'.loop.face = Function.update s.loop.face e x'
  event : s'.event = Function.update s.event e f'
  fits : Fits f' x'

omit [Add τ] [Sub τ] in
theorem Calls.spec {f' : Option EventFields} (h : Calls s s' e f' x') (hs : s.Sound) :
    s'.Sound ∧ s'.events = Function.update s.events e (view? f' x') := by
  refine ⟨⟨h.sound, fun v => ?_⟩, ?_⟩
  · rw [h.face, h.event]
    by_cases hv : v = e
    · rw [hv, Function.update_self, Function.update_self]
      exact h.fits
    · rw [Function.update_of_ne hv, Function.update_of_ne hv]
      exact hs.fits v
  · funext v
    unfold events
    rw [h.face, h.event]
    by_cases hv : v = e
    · rw [hv, Function.update_self, Function.update_self, Function.update_self]
    · rw [Function.update_of_ne hv, Function.update_of_ne hv, Function.update_of_ne hv]

/-! ## `event_set`, `event_add` and `event_del` -/

omit [LinearOrder τ] [Add τ] [Sub τ] [Zero τ] in
theorem evInit_eq {w : Watcher ι} (hw : l.active w = 0) (hp : l.queue.pending w = 0) :
    evInit l w = { l with queue := l.queue.evSetPriority w defaultPri } := by
  have hpending : Function.update l.queue.pending w 0 = l.queue.pending := by
    rw [← hp, Function.update_eq_self]
  cases w with
  | io e =>
      have hactive : Function.update l.fds.active e 0 = l.fds.active := by
        rw [← show l.fds.active e = 0 from hw, Function.update_eq_self]
      simp only [evInit, hpending, hactive, Pendings.evSetPriority]
  | sig e =>
      have hactive : Function.update l.signals.active e 0 = l.signals.active := by
        rw [← show l.signals.active e = 0 from hw, Function.update_eq_self]
      simp only [evInit, hpending, hactive, Pendings.evSetPriority]
  | timer e =>
      have hactive : Function.update l.timers.timers.active e 0 = l.timers.timers.active := by
        rw [← show l.timers.timers.active e = 0 from hw, Function.update_eq_self]
      simp only [evInit, hpending, hactive, Pendings.evSetPriority]

omit [DecidableEq ι] [LinearOrder τ] [Add τ] [Sub τ] in
/-- An event whose watchers are idle. -/
theorem fits_idle (hs : l.queue.Sound) (hidle : Idle l e) (f : Option EventFields) :
    Fits f (l.face e) := by
  obtain ⟨⟨hio, hioPending⟩, ⟨hsig, hsigPending⟩, hto, htoPending⟩ := hidle
  have hioTold := (Pendings.told_eq_none hs).mpr hioPending
  have hsigTold := (Pendings.told_eq_none hs).mpr hsigPending
  have htoTold := (Pendings.told_eq_none hs).mpr htoPending
  have harmed := Timers.armed_eq_none.mpr hto
  constructor <;> simp [Loop.face, hio, hsig, harmed, hioTold, hsigTold, htoTold]

omit [Add τ] [Sub τ] in
theorem eventSet_calls (hs : s.Sound) (hidle : Idle s.loop e) (fd : Int) (events : EventMask)
    (arg : CoroId) : ∃ f' x', Calls s (s.eventSet e fd events arg) e (some f') x' ∧
      view f' x' = Coroutine.Event.set fd events arg := by
  let w : Watcher ι := if hasBit events Coroutine.evSignal then .sig e else .io e
  have hw : s.loop.active w = 0 ∧ s.loop.queue.pending w = 0 := by
    simp only [w]
    split
    · exact hidle.2.1
    · exact hidle.1
  have hfirst := evInit_eq hw.1 hw.2
  have hsecond : evInit (evInit s.loop w) (.timer e) = { s.loop with
      queue := (s.loop.queue.evSetPriority w defaultPri).evSetPriority (.timer e) defaultPri } := by
    rw [hfirst]
    exact evInit_eq hidle.2.2.1 hidle.2.2.2
  have hq := hs.loop.queue.evSetPriority hw.2 defaultPri
  have hpending : (s.loop.queue.evSetPriority w defaultPri).pending (.timer e) = 0 :=
    hidle.2.2.2
  have hq' := hq.1.evSetPriority hpending defaultPri
  have hface : (evInit (evInit s.loop w) (.timer e)).face = s.loop.face := by
    rw [hsecond]
    funext v
    simp only [Loop.face, hq'.2, hq.2]
  have hsound : (evInit (evInit s.loop w) (.timer e)).Sound := by
    rw [hsecond]
    exact hs.loop.withQueue hq'.1
  refine ⟨_, s.loop.face e, ⟨hsound, ?_, ?_, rfl, fits_idle hs.loop.queue hidle _⟩, ?_⟩
  · change (evInit (evInit s.loop w) (.timer e)).timers.mnNow = _
    rw [hsecond]
  · rw [Function.update_eq_self]
    exact hface
  · obtain ⟨⟨hio, -⟩, ⟨hsig, -⟩, hto, -⟩ := hidle
    have harmed := Timers.armed_eq_none.mpr hto
    simp [view, Loop.face, hio, hsig, harmed, Coroutine.Event.set, evlistInit, evlistActive]

omit [LinearOrder τ] [Add τ] [Sub τ] in
theorem Fits.same (h : Fits (some f) x) (f' : EventFields) (hf : f'.evEvents = f.evEvents) :
    Fits (some f') x := by
  refine ⟨fun hx => ?_, fun hx => ?_, fun hx => ⟨by simp, (h.timer hx).2⟩, h.ioTold, h.sigTold,
    h.toTold⟩
  · obtain ⟨g, hg, hbits⟩ := h.io hx
    obtain rfl := Option.some.inj hg
    exact ⟨f', rfl, hf ▸ hbits⟩
  · obtain ⟨g, hg, hbit⟩ := h.sig hx
    obtain rfl := Option.some.inj hg
    exact ⟨f', rfl, hf ▸ hbit⟩

/-- `ev_io_start` clears the flag that `ev_io_set` sets. -/
theorem evIofdset_roundTrip (m : EventMask) :
    ((m &&& (Coroutine.evRead ||| Coroutine.evWrite)).setWidth 32 ||| evIofdset) &&&
      ~~~evIofdset = (m &&& (Coroutine.evRead ||| Coroutine.evWrite)).setWidth 32 := by
  have hmask : (m &&& (Coroutine.evRead ||| Coroutine.evWrite)).setWidth 32 =
      m.setWidth 32 &&& 3 := by
    rw [BitVec.setWidth_and]
    rfl
  have hclear : (3 : Revents) &&& ~~~evIofdset = 3 := by decide
  rw [hmask, BitVec.and_or_distrib_right, BitVec.and_not_self, BitVec.and_assoc, hclear]
  exact BitVec.or_zero

/-- What a part of `event_add` or `event_del` does to the event. -/
structure Part (l l' : Loop ι τ) (e : ι) (f f' : EventFields) (x' : Face τ) : Prop where
  sound : l'.Sound
  mnNow : l'.timers.mnNow = l.timers.mnNow
  face : l'.face = Function.update l.face e x'
  evEvents : f' = { f with evFlags := f'.evFlags }
  fits : Fits (some f') x'

omit [Add τ] [Sub τ] in
theorem Part.same (h : l.Sound) (hx : Fits (some f) (l.face e)) : Part l l e f f (l.face e) :=
  ⟨h, rfl, by rw [Function.update_eq_self], rfl, hx⟩

theorem addIosig_part (h : l.Sound) (hx : Fits (some f) (l.face e))
    (hok : addIosig l e f = .ok (l', f')) : ∃ x', Part l l' e f f' x' ∧
      x'.armed = (l.face e).armed ∧
      (x'.ioActive || x'.sigActive) = ((l.face e).ioActive || (l.face e).sigActive ||
        (hasBit f.evEvents Coroutine.evSignal ||
          hasBit f.evEvents (Coroutine.evRead ||| Coroutine.evWrite))) := by
  unfold addIosig at hok
  split at hok
  next hsig =>
    split at hok
    next hw =>
      obtain ⟨l₁, hstart, hok⟩ := Fallible.bind_eq_ok.mp hok
      obtain ⟨rfl, rfl⟩ := Prod.mk.inj (Except.ok.inj hok)
      obtain ⟨hs, hnow, hface⟩ := (h.evSignalSet hw f.evFd).evSignalStart_face hw hstart
      rw [Loop.face_evSignalSet, Function.update_idem, Function.update_self] at hface
      refine ⟨_, ⟨hs, hnow, hface, rfl, fun hon => ?_, fun _ => ⟨_, rfl, hsig⟩,
        fun hon => ⟨by simp, ?_⟩,
        hx.ioTold, fun r hr => ⟨rfl, (hx.sigTold r hr).2⟩, hx.toTold⟩, rfl, ?_⟩
      · obtain ⟨g, hg, hno, -⟩ := hx.io hon
        obtain rfl := Option.some.inj hg
        rw [hsig] at hno
        cases hno
      · exact (hx.timer hon).2
      · simp [hsig]
    next hw =>
      obtain ⟨rfl, rfl⟩ := Prod.mk.inj (Except.ok.inj hok)
      refine ⟨_, .same h hx, rfl, ?_⟩
      have hon : (l.face e).sigActive = true := bne_iff_ne.mpr hw
      simp [hon]
  next hsig =>
    split at hok
    next hio =>
      split at hok
      next hw =>
        obtain ⟨l₁, hstart, hok⟩ := Fallible.bind_eq_ok.mp hok
        obtain ⟨rfl, rfl⟩ := Prod.mk.inj (Except.ok.inj hok)
        obtain ⟨hs, hnow, hface⟩ := (h.evIoSet hw f.evFd _).evIoStart_face hw hstart
        rw [Loop.face_evIoSet, Function.update_idem, Function.update_self] at hface
        have hoff : (l.face e).ioActive = false := by simp [Loop.face, hw]
        refine ⟨_, ⟨hs, hnow, hface, rfl, fun _ => ⟨_, rfl, ?_, hio, ?_⟩, fun hon => ?_,
          fun hon => ⟨by simp, (hx.timer hon).2⟩, fun r hr => ?_, hx.sigTold, hx.toTold⟩, rfl, ?_⟩
        · exact Bool.eq_false_iff.mpr hsig
        · exact evIofdset_roundTrip f.evEvents
        · obtain ⟨g, hg, hbit⟩ := hx.sig hon
          obtain rfl := Option.some.inj hg
          exact absurd hbit hsig
        · have hon := (hx.ioTold r hr).1
          rw [hoff] at hon
          cases hon
        · simp [hio]
      next hw =>
        obtain ⟨rfl, rfl⟩ := Prod.mk.inj (Except.ok.inj hok)
        refine ⟨_, .same h hx, rfl, ?_⟩
        have hon : (l.face e).ioActive = true := bne_iff_ne.mpr hw
        simp [hon]
    next hio =>
      obtain ⟨rfl, rfl⟩ := Prod.mk.inj (Except.ok.inj hok)
      refine ⟨_, .same h hx, rfl, ?_⟩
      rw [Bool.eq_false_iff.mpr hsig, Bool.eq_false_iff.mpr hio, Bool.or_false, Bool.or_false]

/-- A timer that has just been armed, to go off after a time. -/
def ArmedFor (mnNow after : τ) (x : Face τ) : Prop :=
  x.toTold = none ∧ (x.armed = some (mnNow + after) ∨ x.armed = some (after + mnNow))

theorem addTimeout_part {tv : Option τ} (husec : usec ≠ 0) (h : l.Sound)
    (hx : Fits (some f) (l.face e)) (hok : addTimeout usec l e f tv = .ok (l', f')) :
    ∃ x', Part l l' e f f' x' ∧ x'.armed.isSome = tv.isSome ∧
      (x'.ioActive || x'.sigActive) = ((l.face e).ioActive || (l.face e).sigActive) ∧
      ∀ after, tv = some after → ArmedFor l.timers.mnNow (evTvGet usec after) x' := by
  cases tv with
  | some tv =>
      obtain ⟨l₁, hagain, hok⟩ := Fallible.bind_eq_ok.mp hok
      obtain ⟨rfl, rfl⟩ := Prod.mk.inj (Except.ok.inj hok)
      have hset : (l.setRepeat e (evTvGet usec tv)).Sound :=
        h.withTimers rfl rfl fun _ _ => rfl
      have hrepeat : evTvGet usec tv ≠ 0 := by
        unfold evTvGet
        split
        · assumption
        · exact husec
      obtain ⟨hs, hnow, g, hg, hface⟩ := hset.evTimerAgain_face hagain
      have hat : (l.setRepeat e (evTvGet usec tv)).timers.evRepeat e = evTvGet usec tv :=
        Function.update_self ..
      have harmed : g = some (l.timers.mnNow + evTvGet usec tv) ∨
          g = some (evTvGet usec tv + l.timers.mnNow) := by
        cases hg with
        | stops hzero => exact absurd (hat.symm.trans hzero) hrepeat
        | restarts =>
            rw [hat]
            exact .inl rfl
        | starts =>
            rw [hat]
            exact .inr rfl
      have hsome : g.isSome = true := by
        rcases harmed with rfl | rfl <;> rfl
      rw [Loop.face_setRepeat, Function.update_idem, Function.update_self] at hface
      refine ⟨_, ⟨hs, hnow, hface, rfl, ?_⟩, hsome, rfl, fun after hafter => ?_⟩
      · have hx' := hx.same { f with evFlags := f.evFlags ||| evlistTimeout } rfl
        exact ⟨hx'.io, hx'.sig, fun _ => ⟨by simp, hrepeat⟩, hx'.ioTold, hx'.sigTold,
          fun r hr => by cases hr⟩
      · obtain rfl := Option.some.inj hafter
        exact ⟨rfl, harmed⟩
  | none =>
      obtain ⟨l₁, hstop, hok⟩ := Fallible.bind_eq_ok.mp hok
      obtain ⟨rfl, rfl⟩ := Prod.mk.inj (Except.ok.inj hok)
      obtain ⟨hs, hnow, hface⟩ := h.evTimerStop_face hstop
      refine ⟨_, ⟨hs, hnow, hface, rfl, ?_⟩, rfl, rfl, fun after hafter => by cases hafter⟩
      have hx' := hx.same { f with evFlags := f.evFlags &&& ~~~evlistTimeout } rfl
      exact ⟨hx'.io, hx'.sig, fun hon => absurd rfl hon, hx'.ioTold, hx'.sigTold,
        fun r hr => by cases hr⟩

/-- `event_add` is that of the reactor's events. -/
theorem eventAdd_calls {tv : Option τ} (husec : usec ≠ 0) (hs : s.Sound) (he : s.event e = some f)
    (hok : s.eventAdd usec e f tv = .ok s') : ∃ f' x', Calls s s' e (some f') x' ∧
      view f' x' = (view f (s.loop.face e)).add tv.isSome ∧
      ∀ after, tv = some after → ArmedFor s.loop.timers.mnNow (evTvGet usec after) x' := by
  have hx : Fits (some f) (s.loop.face e) := he ▸ hs.fits e
  obtain ⟨⟨l₁, f₁⟩, hfirst, hok⟩ := Fallible.bind_eq_ok.mp hok
  obtain ⟨⟨l₂, f₂⟩, hsecond, hok⟩ := Fallible.bind_eq_ok.mp hok
  obtain ⟨x₁, hp₁, hto₁, hio₁⟩ := addIosig_part hs.loop hx hfirst
  have hface₁ : l₁.face e = x₁ := by rw [hp₁.face, Function.update_self]
  obtain ⟨x₂, hp₂, hto₂, hio₂, harmed⟩ :=
    addTimeout_part husec hp₁.sound (hface₁.symm ▸ hp₁.fits) hsecond
  rw [← Except.ok.inj hok]
  refine ⟨_, x₂, ⟨hp₂.sound, hp₂.mnNow.trans hp₁.mnNow, ?_, rfl, hp₂.fits.same _ rfl⟩, ?_,
    hp₁.mnNow ▸ harmed⟩
  · change l₂.face = _
    rw [hp₂.face, hp₁.face, Function.update_idem]
  · have hfields : f₂ = { f with evFlags := f₂.evFlags } := by
      rw [hp₂.evEvents, hp₁.evEvents]
    have hactive : (f₂.evFlags ||| evlistActive) &&& evlistActive ≠ 0 := by
      rw [BitVec.and_or_distrib_right, BitVec.and_self]
      intro hzero
      exact absurd (BitVec.or_eq_zero_iff.mp hzero).2 (by decide)
    rw [hfields]
    simp only [view, Coroutine.Event.add, Coroutine.Event.watches, hto₂, hio₂, hface₁, hio₁,
      bne_iff_ne.mpr hactive]

theorem delIosig_part (h : l.Sound) (hx : Fits (some f) (l.face e))
    (hok : delIosig l e f = .ok l') : ∃ x', Part l l' e f f x' ∧
      x'.armed = (l.face e).armed ∧
      (x'.ioActive || x'.sigActive) = (((l.face e).ioActive || (l.face e).sigActive) &&
        !(hasBit f.evEvents Coroutine.evSignal ||
          hasBit f.evEvents (Coroutine.evRead ||| Coroutine.evWrite))) := by
  unfold delIosig at hok
  split at hok
  next hsig =>
    obtain rfl := Except.ok.inj hok
    obtain ⟨hs, hnow, hface⟩ := h.evSignalStop_face e
    have hoff : (l.face e).ioActive = false := by
      refine Bool.eq_false_iff.mpr fun hon => ?_
      obtain ⟨g, hg, hno, -⟩ := hx.io hon
      obtain rfl := Option.some.inj hg
      rw [hsig] at hno
      cases hno
    refine ⟨_, ⟨hs, hnow, hface, rfl, hx.io, (fun hon => by cases hon), hx.timer, hx.ioTold,
      (fun r hr => by cases hr), hx.toTold⟩, rfl, ?_⟩
    simp [hoff, hsig]
  next hsig =>
    have hoff : (l.face e).sigActive = false := by
      refine Bool.eq_false_iff.mpr fun hon => ?_
      obtain ⟨g, hg, hbit⟩ := hx.sig hon
      obtain rfl := Option.some.inj hg
      exact hsig hbit
    split at hok
    next hio =>
      obtain ⟨hs, hnow, hface⟩ := h.evIoStop_face hok
      refine ⟨_, ⟨hs, hnow, hface, rfl, (fun hon => by cases hon), hx.sig, hx.timer,
        (fun r hr => by cases hr), hx.sigTold, hx.toTold⟩, rfl, ?_⟩
      simp [hoff, hio]
    next hio =>
      obtain rfl := Except.ok.inj hok
      refine ⟨_, .same h hx, rfl, ?_⟩
      rw [Bool.eq_false_iff.mpr hsig, Bool.eq_false_iff.mpr hio]
      simp

/-- `event_del` is that of the reactor's events. -/
theorem eventDel_calls (hs : s.Sound) (he : s.event e = some f) (hok : s.eventDel e f = .ok s') :
    ∃ f' x', Calls s s' e (some f') x' ∧ view f' x' = (view f (s.loop.face e)).del := by
  have hx : Fits (some f) (s.loop.face e) := he ▸ hs.fits e
  obtain ⟨l₁, hfirst, hok⟩ := Fallible.bind_eq_ok.mp hok
  obtain ⟨l₂, hsecond, hok⟩ := Fallible.bind_eq_ok.mp hok
  obtain ⟨x₁, hp₁, -, hio₁⟩ := delIosig_part hs.loop hx hfirst
  have hface₁ : l₁.face e = x₁ := by rw [hp₁.face, Function.update_self]
  -- a timer that is not active is not pending either
  have hstop : l₂.Sound ∧ l₂.timers.mnNow = l₁.timers.mnNow ∧ l₂.face =
      Function.update l₁.face e { x₁ with armed := none, toTold := none } := by
    unfold delTimeout at hsecond
    split at hsecond
    next => exact hface₁ ▸ hp₁.sound.evTimerStop_face hsecond
    next hw =>
      obtain rfl := Except.ok.inj hsecond
      have hoff : x₁.armed = none := by
        rw [← hface₁]
        exact Timers.armed_eq_none.mpr (not_not.mp hw)
      have hnone : x₁.toTold = none := by
        refine Option.eq_none_iff_forall_ne_some.mpr fun r hr => ?_
        exact (hp₁.fits.toTold r hr).1 hoff
      refine ⟨hp₁.sound, rfl, ?_⟩
      rw [← hoff, ← hnone, ← hface₁, Function.update_eq_self]
  rw [← Except.ok.inj hok]
  have hfits := hp₁.fits.same { f with evFlags := evlistInit } rfl
  refine ⟨_, { x₁ with armed := none, toTold := none }, ⟨hstop.1,
    hstop.2.1.trans hp₁.mnNow, ?_, rfl, hfits.io, hfits.sig, fun hon => absurd rfl hon,
    hfits.ioTold, hfits.sigTold, fun r hr => by cases hr⟩, ?_⟩
  · change l₂.face = _
    rw [hstop.2.2, hp₁.face, Function.update_idem]
  · simp only [view, Coroutine.Event.del, Coroutine.Event.watches, hio₁]
    rfl

/-! ## The steps of the loop and the callbacks -/

omit [Add τ] [Sub τ] in
/-- What the backend, the clock and signals do cannot be seen of an event. -/
theorem Fits.reports {f : Option EventFields} {mnNow : τ} (h : Fits f x)
    (hr : Face.Reports mnNow x x') :
    Fits f x' ∧ view? f x' = view? f x := by
  have hto : x'.armed ≠ none ↔ x.armed ≠ none := by
    rcases hr.timer with ⟨hsame, -⟩ | ⟨a, ha, -, hnext⟩
    · rw [hsame]
    · have hon : x.armed ≠ none := ha ▸ Option.some_ne_none a
      exact iff_of_true (hnext (h.timer hon).2).1 hon
  refine ⟨⟨?_, ?_, ?_, fun r hr' => ?_, fun r hr' => ?_, fun r hr' => ?_⟩, ?_⟩
  · rw [hr.ioActive, hr.events]
    exact h.io
  · rw [hr.sigActive]
    exact h.sig
  · rw [hto, hr.evRepeat]
    exact h.timer
  · rw [hr.ioActive, hr.events]
    rcases hr.ioTold with hsame | ⟨hon, r₀, hne, htold⟩
    · exact h.ioTold r (hsame ▸ hr')
    · obtain rfl := Option.some.inj (htold.symm.trans hr')
      refine ⟨hon, fun hzero => hne (BitVec.or_eq_zero_iff.mp hzero).2, ?_⟩
      have hnew : x.events &&& r₀ &&& x.events = x.events &&& r₀ := by
        rw [BitVec.and_comm, ← BitVec.and_assoc, BitVec.and_self]
      cases hold : x.ioTold with
      | none => simpa using hnew
      | some r₁ =>
          rw [Option.getD_some, BitVec.and_or_distrib_right, hnew, (h.ioTold r₁ hold).2.2]
  · rw [hr.sigActive]
    rcases hr.sigTold with hsame | ⟨hon, htold⟩
    · exact h.sigTold r (hsame ▸ hr')
    · obtain rfl := Option.some.inj (htold.symm.trans hr')
      refine ⟨hon, ?_⟩
      cases hold : x.sigTold with
      | none => simp
      | some r₁ => simp [(h.sigTold r₁ hold).2]
  · rw [hto]
    rcases hr.timer with ⟨-, hsame⟩ | ⟨a, ha, -, hnext⟩
    · exact h.toTold r (hsame ▸ hr')
    · have hon : x.armed ≠ none := ha ▸ Option.some_ne_none a
      obtain rfl := Option.some.inj ((hnext (h.timer hon).2).2.symm.trans hr')
      refine ⟨hon, ?_⟩
      cases hold : x.toTold with
      | none => simp
      | some r₁ => simp [(h.toTold r₁ hold).2]
  · have hsome : x'.armed.isSome = x.armed.isSome := by
      rw [Bool.eq_iff_iff, Option.isSome_iff_ne_none, Option.isSome_iff_ne_none, hto]
    unfold view? view
    rw [hr.ioActive, hr.sigActive, hsome]

theorem evRun_spec {i : LoopAct ι τ} {evs : List (Watcher ι × Revents)} (hs : s.Sound)
    (hi : i.IsBackend) (hkill : ∀ fd, i ≠ .fdKill fd)
    (hstep : s.loop.step i = some (.ok (l', evs))) :
    ({ s with loop := l' } : EventBase ι τ).Sound ∧
      ({ s with loop := l' } : EventBase ι τ).events = s.events := by
  have hm := hs.loop.moves hstep
  have hfits := fun v => (hs.fits v).reports (hm.reports hs.loop hi hkill v)
  exact ⟨⟨hs.loop.step hstep, fun v => (hfits v).1⟩, funext fun v => (hfits v).2⟩

/-- The events that an I/O watcher of an event was told, as `ev_x_cb` passes them on. -/
theorem told_bits {m : EventMask} {r : Revents} (hne : r ≠ 0)
    (hr : r &&& (m &&& (Coroutine.evRead ||| Coroutine.evWrite)).setWidth 32 = r) :
    (r &&& evXMask).setWidth 16 ≠ 0 ∧
      (r &&& evXMask).setWidth 16 &&& (m &&& (Coroutine.evRead ||| Coroutine.evWrite)) =
        (r &&& evXMask).setWidth 16 ∧ r &&& evError = 0 := by
  have hmask : (m &&& (Coroutine.evRead ||| Coroutine.evWrite)).setWidth 32 =
      m.setWidth 32 &&& 3 := by
    rw [BitVec.setWidth_and]
    rfl
  have hthree : r &&& 3 = r := by
    calc r &&& 3 = r &&& (m.setWidth 32 &&& 3) &&& 3 := by rw [← hmask, hr]
      _ = r &&& (m.setWidth 32 &&& 3) := by
        rw [BitVec.and_assoc, BitVec.and_assoc, BitVec.and_self]
      _ = r := by rw [← hmask, hr]
  have hall : r &&& evXMask = r := by
    calc r &&& evXMask = r &&& (3 &&& evXMask) := by rw [← BitVec.and_assoc, hthree]
      _ = r &&& 3 := rfl
      _ = r := hthree
  have herror : r &&& evError = 0 := by
    calc r &&& evError = r &&& (3 &&& evError) := by rw [← BitVec.and_assoc, hthree]
      _ = r &&& 0 := rfl
      _ = 0 := BitVec.and_zero
  refine ⟨?_, ?_, herror⟩
  · rw [hall]
    intro hzero
    have hle : r.toNat ≤ 3 := by
      rw [← hthree, BitVec.toNat_and]
      exact Nat.and_le_right
    have hnat : r.toNat % 2 ^ 16 = 0 := by
      have hcast := congrArg BitVec.toNat hzero
      simpa using hcast
    have hsmall : r.toNat = (0 : Revents).toNat := by
      change r.toNat = 0
      omega
    exact hne (BitVec.eq_of_toNat_eq hsmall)
  · rw [hall]
    have hback := congrArg (BitVec.setWidth 16) hr
    rwa [BitVec.setWidth_and, BitVec.setWidth_setWidth_of_le _ (by decide),
      BitVec.setWidth_eq] at hback

/-- A callback that is due, as the reactor's events see it. -/
structure Called (f : EventFields) (x : Face τ) (w : Watcher ι) (r : Revents) : Prop where
  mayFire : (view f x).mayFire ((r &&& evXMask).setWidth 16) (owner w).2 = true
  fire : (view f x).fire (owner w).2 = if deletes f r w then (view f x).del else view f x

omit [DecidableEq ι] [LinearOrder τ] [Add τ] [Sub τ] in
/-- What a watcher was told is a callback that its event may make. -/
theorem Fits.called {w : Watcher ι} {r : Revents} {f : Option EventFields} (h : Fits f x)
    (htold : match w with
      | .io _ => x.ioTold = some r
      | .sig _ => x.sigTold = some r
      | .timer _ => x.toTold = some r) : ∃ g, f = some g ∧ Called g x w r := by
  cases w with
  | io e =>
      obtain ⟨hon, hne, hbits⟩ := h.ioTold r htold
      obtain ⟨g, rfl, hsig, hio, hevents⟩ := h.io hon
      rw [hevents] at hbits
      obtain ⟨hnz, hsub, herror⟩ := told_bits hne hbits
      refine ⟨g, rfl, ?_, ?_⟩
      · simp only [view, owner, Coroutine.Event.mayFire, hon, hsig, Bool.true_or, Bool.true_and,
          Bool.false_eq_true, if_false]
        exact Bool.and_eq_true_iff.mpr ⟨bne_iff_ne.mpr hnz, beq_iff_eq.mpr hsub⟩
      · have hnot : (r &&& evError != 0) = false := by simp [herror]
        simp only [owner, Coroutine.Event.fire, view, hsig, deletes, hnot, Bool.false_or,
          Bool.false_eq_true, if_false]
        rcases Bool.eq_false_or_eq_true (hasBit g.evEvents Coroutine.evPersist) with hp | hp
        · simp [hp]
        · simp [hp]
  | sig e =>
      obtain ⟨hon, rfl⟩ := h.sigTold r htold
      obtain ⟨g, rfl, hsig⟩ := h.sig hon
      refine ⟨g, rfl, ?_, ?_⟩
      · simp only [view, owner, Coroutine.Event.mayFire, hon, hsig, Bool.or_true, Bool.true_and,
          if_true]
        rfl
      · have hnot : (evSignal &&& evError != 0) = false := by decide
        simp only [owner, Coroutine.Event.fire, view, hsig, deletes, hnot, if_true,
          Bool.false_eq_true, if_false]
  | timer e =>
      obtain ⟨hon, rfl⟩ := h.toTold r htold
      obtain ⟨g, rfl⟩ := Option.ne_none_iff_exists'.mp (h.timer hon).1
      refine ⟨g, rfl, ?_, ?_⟩
      · have hsome : x.armed.isSome = true := Option.isSome_iff_ne_none.mpr hon
        simp only [view, owner, Coroutine.Event.mayFire, hsome, Bool.true_and]
        rfl
      · simp only [owner, Coroutine.Event.fire, deletes, if_true]

omit [Add τ] [Sub τ] in
/-- A slot of an event base: the watcher was told the events, and no longer waits. -/
theorem takeLast_spec {w : Watcher ι} {r : Revents} {queue : Pendings (Watcher ι)}
    {pri : Fin numpri} (hs : s.Sound)
    (htake : s.loop.queue.takeLast pri = some (⟨some w, r⟩, queue)) :
    ({ s with loop := { s.loop with queue } } : EventBase ι τ).Sound ∧
      ({ s with loop := { s.loop with queue } } : EventBase ι τ).events = s.events ∧
      ∃ g, s.event (owner w).1 = some g ∧ Called g (s.loop.face (owner w).1) w r ∧
        view g (({ s.loop with queue } : Loop ι τ).face (owner w).1) =
          view g (s.loop.face (owner w).1) := by
  obtain ⟨hq, -, -, htold, hafter⟩ := hs.loop.queue.takeLast_watcher htake
  have hfits : ∀ v, Fits (s.event v) (({ s.loop with queue } : Loop ι τ).face v) := by
    intro v
    have hold := hs.fits v
    refine ⟨hold.io, hold.sig, hold.timer, fun r' hr' => ?_, fun r' hr' => ?_, fun r' hr' => ?_⟩
    · have hsome : queue.told (.io v) = some r' := hr'
      rw [hafter] at hsome
      refine hold.ioTold r' ?_
      by_cases hvw : Watcher.io v = w
      · simp [hvw] at hsome
      · rwa [Function.update_of_ne hvw] at hsome
    · have hsome : queue.told (.sig v) = some r' := hr'
      rw [hafter] at hsome
      refine hold.sigTold r' ?_
      by_cases hvw : Watcher.sig v = w
      · simp [hvw] at hsome
      · rwa [Function.update_of_ne hvw] at hsome
    · have hsome : queue.told (.timer v) = some r' := hr'
      rw [hafter] at hsome
      refine hold.toTold r' ?_
      by_cases hvw : Watcher.timer v = w
      · simp [hvw] at hsome
      · rwa [Function.update_of_ne hvw] at hsome
  refine ⟨⟨hs.loop.withQueue hq, hfits⟩, rfl, ?_⟩
  obtain ⟨g, hg, hcalled⟩ := (hs.fits (owner w).1).called (w := w) (r := r) (by
    cases w with
    | io e => exact htold
    | sig e => exact htold
    | timer e => exact htold)
  exact ⟨g, hg, hcalled, rfl⟩

omit [Add τ] [Sub τ] in
theorem evXCb_spec (hs : s.Sound) (he : s.event e = some f) (watcher : Coroutine.Watcher)
    (r : Revents) : ∃ s', s.evXCb e watcher r =
        some (s', [⟨e, watcher, f.evFd, (r &&& evXMask).setWidth 16, f.evArg⟩]) ∧
      s'.Sound ∧ s'.events = s.events := by
  unfold evXCb
  rw [he]
  let f' := { f with evRes := r &&& evXMask }
  let s' : EventBase ι τ := { s with event := Function.update s.event e (some f') }
  have hold : Fits (some f) (s.loop.face e) := he ▸ hs.fits e
  have hcalls : Calls s s' e (some f') (s.loop.face e) :=
    ⟨hs.loop, rfl, by rw [Function.update_eq_self], rfl, hold.same f' rfl⟩
  obtain ⟨hsound, hevents⟩ := hcalls.spec hs
  refine ⟨s', rfl, hsound, hevents.trans ?_⟩
  have hview : view? (some f') (s.loop.face e) = s.events e := by
    unfold events
    rw [he]
    rfl
  rw [hview, Function.update_eq_self]

omit [LinearOrder τ] [Add τ] [Sub τ] [Zero τ] in
theorem evXCb_loop {watcher : Coroutine.Watcher} {r : Revents} {evs : List (Fired ι)}
    (hcb : s.evXCb e watcher r = some (s', evs)) :
    s'.loop = s.loop ∧ ∀ o ∈ evs, o.event = e ∧ o.watcher = watcher := by
  unfold evXCb at hcb
  split at hcb
  next => cases hcb
  next =>
    obtain ⟨rfl, rfl⟩ := Prod.mk.inj (Option.some.inj hcb)
    refine ⟨rfl, fun o ho => ?_⟩
    rw [List.mem_singleton.mp ho]
    exact ⟨rfl, rfl⟩

/-- What `ev_invoke_pending` does with a slot that is not empty. -/
structure Invoked (s : EventBase ι τ) (queue : Pendings (Watcher ι)) (w : Watcher ι) (r : Revents)
    (f : EventFields) (s₂ s' : EventBase ι τ) (evs : List (Fired ι)) : Prop where
  event : s.event (owner w).1 = some f
  deletes : if deletes f r w then
      ({ s with loop := { s.loop with queue } } : EventBase ι τ).eventDel (owner w).1 f = .ok s₂
    else s₂ = { s with loop := { s.loop with queue } }
  callback : s₂.evXCb (owner w).1 (owner w).2 r = some (s', evs)

omit [Add τ] [Zero τ] in
theorem invoke_cases {pri : Fin numpri} {evs : List (Fired ι)}
    (hok : s.invoke pri = some (.ok (s', evs))) :
    (∃ r queue, s.loop.queue.takeLast pri = some (⟨none, r⟩, queue) ∧ evs = [] ∧
      s' = { s with loop := { s.loop with queue } }) ∨
    ∃ w r queue f s₂, s.loop.queue.takeLast pri = some (⟨some w, r⟩, queue) ∧
      Invoked s queue w r f s₂ s' evs := by
  unfold invoke at hok
  split at hok
  next => cases hok
  next r queue htake =>
    obtain ⟨rfl, rfl⟩ := Prod.mk.inj (Except.ok.inj (Option.some.inj hok))
    exact .inl ⟨r, queue, htake, rfl, rfl⟩
  next w r queue htake =>
    simp only at hok
    split at hok
    next => cases hok
    next f he =>
      split at hok
      next => cases hok
      next s₂ hdel =>
        obtain ⟨q, hcb, heq⟩ := Option.map_eq_some_iff.mp hok
        obtain rfl := Except.ok.inj heq
        refine .inr ⟨w, r, queue, f, s₂, htake, he, ?_, hcb⟩
        split at hdel
        next hdeletes => rwa [if_pos hdeletes]
        next hkeeps =>
          rw [if_neg hkeeps]
          exact (Except.ok.inj hdel).symm

/-- What `ev_invoke_pending` does with one slot: nothing that can be seen, or a callback that
`Event.mayFire` allows. -/
theorem invoke_spec {pri : Fin numpri} {evs : List (Fired ι)} (hs : s.Sound)
    (hok : s.invoke pri = some (.ok (s', evs))) : s'.Sound ∧
      (evs = [] ∧ s'.events = s.events ∨ ∃ e watcher revents ev, s.events e = some ev ∧
        ev.mayFire revents watcher = true ∧
        evs = [⟨e, watcher, ev.evFd, revents, ev.evArg⟩] ∧
        s'.events = Function.update s.events e (some (ev.fire watcher))) := by
  rcases invoke_cases hok with ⟨r, queue, htake, rfl, rfl⟩ | ⟨w, r, queue, f, s₂, htake, hin⟩
  · obtain ⟨hq, -, htold⟩ := hs.loop.queue.takeLast_dummy htake
    have hface : ({ s.loop with queue } : Loop ι τ).face = s.loop.face := by
      funext v
      simp only [Loop.face, htold]
    refine ⟨⟨hs.loop.withQueue hq, fun v => ?_⟩, .inl ⟨rfl, ?_⟩⟩
    · rw [hface]
      exact hs.fits v
    · unfold events
      rw [hface]
  · obtain ⟨hs₁, hevents₁, f', he, hcalled, hview⟩ := takeLast_spec hs htake
    obtain rfl := Option.some.inj (he.symm.trans hin.event)
    have hev : s.events (owner w).1 = some (view f' (s.loop.face (owner w).1)) := by
      unfold events
      rw [he]
      rfl
    have hbefore : s₂.Sound ∧ ∃ g, s₂.event (owner w).1 = some g ∧ g.evFd = f'.evFd ∧
        g.evArg = f'.evArg ∧ s₂.events = Function.update s.events (owner w).1
          (some ((view f' (s.loop.face (owner w).1)).fire (owner w).2)) := by
      have hdel := hin.deletes
      split at hdel
      next hdeletes =>
        obtain ⟨g, x', hcalls, hg⟩ := eventDel_calls hs₁ he hdel
        obtain ⟨hsound, hevents⟩ := hcalls.spec hs₁
        rw [hview] at hg
        refine ⟨hsound, g, ?_, congrArg Coroutine.Event.evFd hg, congrArg Coroutine.Event.evArg hg,
          ?_⟩
        · rw [hcalls.event, Function.update_self]
        · rw [hevents, hevents₁, hcalled.fire, if_pos hdeletes, ← hg]
          rfl
      next hkeeps =>
        subst hdel
        refine ⟨hs₁, f', he, rfl, rfl, ?_⟩
        rw [hevents₁, hcalled.fire, if_neg hkeeps, ← hev, Function.update_eq_self]
    obtain ⟨hs₂, g, hg, hfd, harg, hevents₂⟩ := hbefore
    obtain ⟨s₃, hcb, hs₃, hevents₃⟩ := evXCb_spec hs₂ hg (owner w).2 r
    obtain ⟨rfl, rfl⟩ := Prod.mk.inj (Option.some.inj (hcb.symm.trans hin.callback))
    refine ⟨hs₃, .inr ⟨(owner w).1, (owner w).2, _, _, hev, hcalled.mayFire, ?_, ?_⟩⟩
    · rw [hfd, harg]
      rfl
    · rw [hevents₃, hevents₂]

/-! ## The steps of an event base -/

section Steps

variable {evs : List (Fired ι)}

omit [DecidableEq ι] [LinearOrder τ] [Add τ] [Sub τ] [Zero τ] in
theorem map_ok {x : Except Fault (EventBase ι τ)} (h : x.map (·, []) = .ok (s', evs)) :
    x = .ok s' ∧ evs = [] := by
  cases x with
  | error fault => cases h
  | ok s₁ =>
      obtain ⟨rfl, rfl⟩ := Prod.mk.inj (Except.ok.inj h)
      exact ⟨rfl, rfl⟩

theorem step_eventSet {fd : Int} {events : EventMask} {arg : CoroId} (hs : s.Sound)
    (hstep : step usec s (.eventSet e fd events arg) = some (.ok (s', evs))) :
    evs = [] ∧ Idle s.loop e ∧ ∃ f' x', Calls s s' e (some f') x' ∧
      view f' x' = Coroutine.Event.set fd events arg := by
  simp only [step] at hstep
  split at hstep
  next hidle =>
    obtain ⟨rfl, rfl⟩ := Prod.mk.inj (Except.ok.inj (Option.some.inj hstep))
    exact ⟨rfl, hidle, eventSet_calls hs hidle fd events arg⟩
  next => cases hstep

theorem step_eventAdd {tv : Option τ} (husec : usec ≠ 0) (hs : s.Sound)
    (hstep : step usec s (.eventAdd e tv) = some (.ok (s', evs))) :
    evs = [] ∧ ∃ f f' x', s.event e = some f ∧ Calls s s' e (some f') x' ∧
      view f' x' = (view f (s.loop.face e)).add tv.isSome ∧
      ∀ after, tv = some after → ArmedFor s.loop.timers.mnNow (evTvGet usec after) x' := by
  simp only [step] at hstep
  split at hstep
  next => cases hstep
  next f he =>
    obtain ⟨hok, rfl⟩ := map_ok (Option.some.inj hstep)
    obtain ⟨f', x', hcalls⟩ := eventAdd_calls husec hs he hok
    exact ⟨rfl, f, f', x', he, hcalls⟩

theorem step_eventDel (hs : s.Sound)
    (hstep : step usec s (.eventDel e) = some (.ok (s', evs))) :
    evs = [] ∧ ∃ f f' x', s.event e = some f ∧ Calls s s' e (some f') x' ∧
      view f' x' = (view f (s.loop.face e)).del := by
  simp only [step] at hstep
  split at hstep
  next => cases hstep
  next f he =>
    obtain ⟨hok, rfl⟩ := map_ok (Option.some.inj hstep)
    obtain ⟨f', x', hcalls⟩ := eventDel_calls hs he hok
    exact ⟨rfl, f, f', x', he, hcalls⟩

theorem step_evRun {i : LoopAct ι τ} (hkill : (EventAct.evRun i).kills = false)
    (hstep : step usec s (.evRun i) = some (.ok (s', evs))) :
    evs = [] ∧ i.IsBackend ∧ (∀ fd, i ≠ .fdKill fd) ∧
      ∃ l' evs', s.loop.step i = some (.ok (l', evs')) ∧ s' = { s with loop := l' } := by
  have hne : ∀ fd, i ≠ .fdKill fd := by
    rintro fd rfl
    cases hkill
  simp only [step] at hstep
  split at hstep
  next hi =>
    split at hstep
    next => cases hstep
    next r hr =>
      cases r with
      | error fault => cases hstep
      | ok q =>
          obtain ⟨rfl, rfl⟩ := Prod.mk.inj (Except.ok.inj (Option.some.inj hstep))
          exact ⟨rfl, hi, hne, _, _, hr, rfl⟩
  next => cases hstep

end Steps

end EventBase

end BoostCoro.Libev
