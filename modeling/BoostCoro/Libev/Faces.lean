import BoostCoro.Libev.Delivery
/-!
# The watchers of one name

An I/O watcher, a signal watcher and a timer that share a name are the watchers of
one `struct event`. A step of the loop changes what can be seen of them at one
name, or feeds them; what it does to the others is that it leaves them alone.
-/

namespace BoostCoro.Libev

variable {ι τ : Type}

/-- What can be seen of the three watchers of a name: whether they are active, their members
and the events that they wait to be called back with. -/
structure Face (τ : Type) where
  ioActive : Bool
  fd : Int
  events : Revents
  ioTold : Option Revents
  sigActive : Bool
  signum : Int
  sigTold : Option Revents
  armed : Option τ
  evRepeat : τ
  toTold : Option Revents

namespace Loop

def face (l : Loop ι τ) (e : ι) : Face τ where
  ioActive := l.fds.active e != 0
  fd := l.fds.fd e
  events := l.fds.events e
  ioTold := l.queue.told (.io e)
  sigActive := l.signals.active e != 0
  signum := l.signals.signum e
  sigTold := l.queue.told (.sig e)
  armed := l.timers.armed e
  evRepeat := l.timers.evRepeat e
  toTold := l.queue.told (.timer e)

variable [DecidableEq ι] {l l' : Loop ι τ} {e : ι} {fd n : Nat}

/-! ## Calls for one watcher -/

theorem face_evIoSet (l : Loop ι τ) (e : ι) (fd : Int) (events : Revents) :
    (l.evIoSet e fd events).face =
      Function.update l.face e { l.face e with fd, events := events ||| evIofdset } := by
  funext x
  by_cases hx : x = e
  · simp [face, evIoSet, hx]
  · simp [face, evIoSet, hx]

theorem face_ioStart (l : Loop ι τ) (e : ι) (fd : Nat) :
    { l.evRef with fds := l.fds.start e fd : Loop ι τ }.face = Function.update l.face e
      { l.face e with ioActive := true, events := (l.face e).events &&& ~~~evIofdset } := by
  funext x
  by_cases hx : x = e
  · simp [face, evRef, Fds.start, Fds.fdChange, hx]
  · simp [face, evRef, Fds.start, Fds.fdChange, hx]

theorem face_clearPending_io (h : l.queue.Sound) (e : ι) :
    (l.clearPending (.io e)).face =
      Function.update l.face e { l.face e with ioTold := none } := by
  funext x
  by_cases hx : x = e
  · simp [face, clearPending, h.told_clearPending, hx]
  · simp [face, clearPending, h.told_clearPending, hx]

theorem face_ioStop (h : l.queue.Sound) (e : ι) (fd : Nat) :
    { (l.clearPending (.io e)).evUnref with fds := l.fds.stop e fd : Loop ι τ }.face =
      Function.update l.face e { l.face e with ioActive := false, ioTold := none } := by
  funext x
  by_cases hx : x = e
  · simp [face, clearPending, evUnref, Fds.stop, Fds.fdChange, h.told_clearPending, hx]
  · simp [face, clearPending, evUnref, Fds.stop, Fds.fdChange, h.told_clearPending, hx]

theorem face_evSignalSet (l : Loop ι τ) (e : ι) (signum : Int) :
    (l.evSignalSet e signum).face = Function.update l.face e { l.face e with signum } := by
  funext x
  by_cases hx : x = e
  · simp [face, evSignalSet, hx]
  · simp [face, evSignalSet, hx]

theorem face_sigStart (l : Loop ι τ) (e : ι) (n : Nat) :
    { l.evRef with signals := l.signals.start e n : Loop ι τ }.face =
      Function.update l.face e { l.face e with sigActive := true } := by
  funext x
  by_cases hx : x = e
  · simp [face, evRef, Signals.start, hx]
  · simp [face, evRef, Signals.start, hx]

theorem face_clearPending_sig (h : l.queue.Sound) (e : ι) :
    (l.clearPending (.sig e)).face =
      Function.update l.face e { l.face e with sigTold := none } := by
  funext x
  by_cases hx : x = e
  · simp [face, clearPending, h.told_clearPending, hx]
  · simp [face, clearPending, h.told_clearPending, hx]

theorem face_sigStop (h : l.queue.Sound) (e : ι) (n : Nat) :
    { (l.clearPending (.sig e)).evUnref with signals := l.signals.stop e n : Loop ι τ }.face =
      Function.update l.face e { l.face e with sigActive := false, sigTold := none } := by
  funext x
  by_cases hx : x = e
  · simp [face, clearPending, evUnref, Signals.stop, h.told_clearPending, hx]
  · simp [face, clearPending, evUnref, Signals.stop, h.told_clearPending, hx]

theorem face_setRepeat (l : Loop ι τ) (e : ι) (evRepeat : τ) :
    (l.setRepeat e evRepeat).face = Function.update l.face e { l.face e with evRepeat } := by
  funext x
  have harmed : (l.setRepeat e evRepeat).timers.armed x = l.timers.armed x := rfl
  by_cases hx : x = e
  · subst hx
    simp only [face, Function.update_self, harmed]
    simp [setRepeat]
  · simp only [face, Function.update_of_ne hx, harmed]
    simp [setRepeat, hx]

theorem face_rearms [LinearOrder τ] {g : Option τ} (h : l.queue.Sound)
    (hre : Rearms l l' e g (l.queue.clearPending (.timer e))) :
    l'.face = Function.update l.face e { l.face e with armed := g, toTold := none } := by
  funext x
  by_cases hx : x = e
  · subst hx
    simp [face, hre.queue, hre.fds, hre.signals, hre.evRepeat, hre.armed, h.told_clearPending]
  · simp [face, hre.queue, hre.fds, hre.signals, hre.evRepeat, hre.armed, h.told_clearPending, hx]

theorem face_evSetPriority (h : l.queue.Sound) {w : Watcher ι} (hw : l.queue.pending w = 0)
    (pri : Fin numpri) :
    { l with queue := l.queue.evSetPriority w pri : Loop ι τ }.face = l.face := by
  funext x
  simp only [face, (h.evSetPriority hw pri).2]

end Loop

/-! ## What the backend, the clock and signals do -/

/-- The steps that `ev_run` and the handlers of signals take. -/
def LoopAct.IsBackend : LoopAct ι τ → Bool
  | .fdEvent _ _ | .fdKill _ | .fdReify => true
  | .evFeedSignal _ | .pipecb => true
  | .timeUpdate _ | .timersReify => true
  | _ => false

/-- Active watchers may have been told something that they are for; a timer is told when the
time it is armed for has passed. -/
structure Face.Reports [LT τ] [Zero τ] (mnNow : τ) (f f' : Face τ) : Prop where
  ioActive : f'.ioActive = f.ioActive
  fd : f'.fd = f.fd
  events : f'.events = f.events
  sigActive : f'.sigActive = f.sigActive
  signum : f'.signum = f.signum
  evRepeat : f'.evRepeat = f.evRepeat
  ioTold : f'.ioTold = f.ioTold ∨ f.ioActive = true ∧
    ∃ r, f.events &&& r ≠ 0 ∧ f'.ioTold = some (f.ioTold.getD 0 ||| (f.events &&& r))
  sigTold : f'.sigTold = f.sigTold ∨ f.sigActive = true ∧
    f'.sigTold = some (f.sigTold.getD 0 ||| evSignal)
  timer : f'.armed = f.armed ∧ f'.toTold = f.toTold ∨
    ∃ a, f.armed = some a ∧ a < mnNow ∧ (f.evRepeat ≠ 0 → f'.armed ≠ none ∧
      f'.toTold = some (f.toTold.getD 0 ||| evTimer))

theorem Face.Reports.refl [LT τ] [Zero τ] (mnNow : τ) (f : Face τ) : Reports mnNow f f :=
  ⟨rfl, rfl, rfl, rfl, rfl, rfl, .inl rfl, .inl rfl, .inl ⟨rfl, rfl⟩⟩

namespace Loop

variable [DecidableEq ι] [LinearOrder τ] {l l' : Loop ι τ}

theorem Sound.reports_fdEventNocheck [Zero τ] (h : l.Sound) (fd : Nat) (revents : Revents) (e : ι) :
    Face.Reports l.timers.mnNow (l.face e) ((l.fdEventNocheck fd revents).face e) := by
  have htold := h.told_fdEventNocheck fd revents
  have hrest := fdEventNocheck_eq l fd revents
  generalize l.fdEventNocheck fd revents = l' at htold hrest
  refine ⟨?_, ?_, ?_, ?_, ?_, ?_, ?_, .inl (htold (.sig e)), .inl ⟨?_, htold (.timer e)⟩⟩
  · rw [hrest]; rfl
  · rw [hrest]; rfl
  · rw [hrest]; rfl
  · rw [hrest]; rfl
  · rw [hrest]; rfl
  · rw [hrest]; rfl
  · have hio := htold (.io e)
    simp only at hio
    split at hio
    next hw => exact .inr ⟨bne_iff_ne.mpr hw.1, revents, hw.2.2, hio⟩
    next => exact .inl hio
  · rw [hrest]; rfl

theorem Sound.reports_pipecb [Zero τ] (h : l.Sound) (e : ι) :
    Face.Reports l.timers.mnNow (l.face e) (l.pipecb.face e) := by
  by_cases hcaught : l.signals.sigPending = true
  · have htold := h.told_pipecb
    have hrest := (pipecb_fed h.queue h.signals hcaught).rest
    generalize l.pipecb = l' at htold hrest
    refine ⟨?_, ?_, ?_, ?_, ?_, ?_, .inl (htold (.io e)), ?_, .inl ⟨?_, htold (.timer e)⟩⟩
    · rw [hrest]; rfl
    · rw [hrest]; rfl
    · rw [hrest]; rfl
    · rw [hrest]; rfl
    · rw [hrest]; rfl
    · rw [hrest]; rfl
    · have hsig := htold (.sig e)
      simp only at hsig
      split at hsig
      next hw => exact .inr ⟨bne_iff_ne.mpr hw.2.1, hsig⟩
      next => exact .inl hsig
    · rw [hrest]; rfl
  · have hidle : l.pipecb = l := if_neg hcaught
    rw [hidle]
    exact .refl ..

theorem Sound.reports_timersReify [Add τ] [Zero τ] {evs : List (Watcher ι × Revents)} (h : l.Sound)
    (hm : Moves l .timersReify l' evs) (e : ι) :
    Face.Reports l.timers.mnNow (l.face e) (l'.face e) := by
  obtain ⟨-, hdue, hother, hrest⟩ := h.timersReified hm
  obtain ⟨l₁, rfeeds, rfl, hre⟩ := hm.reified
  refine ⟨?_, ?_, ?_, ?_, ?_, ?_, .inl (hrest e).1, .inl (hrest e).2, ?_⟩
  · exact congrArg (fun fds : Fds ι => fds.active e != 0) hre.fds
  · exact congrArg (fun fds : Fds ι => fds.fd e) hre.fds
  · exact congrArg (fun fds : Fds ι => fds.events e) hre.fds
  · exact congrArg (fun signals : Signals ι => signals.active e != 0) hre.signals
  · exact congrArg (fun signals : Signals ι => signals.signum e) hre.signals
  · exact congrFun hre.evRepeat e
  · by_cases hw : l.timers.Due e
    · obtain ⟨harmed, htold⟩ := hdue e hw
      obtain ⟨a, ha, hlt⟩ := hw
      refine .inr ⟨a, ha, hlt, fun hrep => ⟨?_, htold.trans (if_neg hrep)⟩⟩
      have hsome : l₁.timers.armed e = rearmed l.timers e := harmed
      have hnext : rearmed l.timers e = some (nextAt l.timers e) := if_neg hrep
      simp only [face, hsome, hnext]
      exact Option.some_ne_none _
    · exact .inl (hother e hw)

/-- A step of `ev_run` tells active watchers what they are for. -/
theorem Moves.reports [Add τ] [Sub τ] [Zero τ] {i : LoopAct ι τ}
    {evs : List (Watcher ι × Revents)} (hm : Moves l i l' evs) (h : l.Sound) (hi : i.IsBackend)
    (hkill : ∀ fd, i ≠ .fdKill fd) (e : ι) :
    Face.Reports l.timers.mnNow (l.face e) (l'.face e) := by
  cases i with
  | fdKill fd => exact absurd rfl (hkill fd)
  | fdEvent fd revents =>
      cases hm with
      | fdEvent => exact h.reports_fdEventNocheck fd revents e
      | fdChanged => exact .refl ..
  | fdReify =>
      cases hm with
      | fdReify =>
          obtain ⟨hactive, hfd, hevents, -⟩ := h.synced.fdReify_same
          have hface : l.fdReify.face e = l.face e := by
            simp only [face, Loop.fdReify, hactive, hfd, hevents]
          rw [hface]
          exact .refl ..
  | evFeedSignal n =>
      cases hm with
      | feedSignal =>
          have hface : { l with signals := l.signals.evFeedSignal n : Loop ι τ }.face e =
              l.face e := by
            simp only [face, Signals.evFeedSignal]
            split <;> rfl
          rw [hface]
          exact .refl ..
  | pipecb =>
      cases hm with
      | pipecb => exact h.reports_pipecb e
  | timeUpdate mnNow =>
      cases hm with
      | timeUpdate => exact .refl ..
  | timersReify => exact h.reports_timersReify hm e
  | _ => cases hi

end Loop

end BoostCoro.Libev
