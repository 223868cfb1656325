import BoostCoro.Libev.Timers
import BoostCoro.Libev.Fds
import BoostCoro.Libev.Signals
import BoostCoro.Lib.Transition
/-!
# Runs of the event loop

The API of libev and the steps of `ev_run` in any order, as callbacks that call
back into the API make them happen. In every state that a run reaches the
assertions of `ev_verify` hold, `activecnt` is the number of active watchers, and
no step finds the heap corrupted or loops for ever.
-/

namespace BoostCoro.Libev

variable {ι τ : Type}

/-- The calls of the API, and what `ev_run` does between two callbacks: the backend reports
a descriptor or finds it unusable, the clock is read, a signal is caught, one slot of the
pending queue is taken. -/
inductive LoopAct (ι τ : Type) where
  | evIoSet (w : ι) (fd : Int) (events : Revents)
  | evIoStart (w : ι)
  | evIoStop (w : ι)
  | evSignalSet (w : ι) (signum : Int)
  | evSignalStart (w : ι)
  | evSignalStop (w : ι)
  | evTimerSet (w : ι) (after evRepeat : τ)
  | setRepeat (w : ι) (evRepeat : τ)
  | evTimerStart (w : ι)
  | evTimerStop (w : ι)
  | evTimerAgain (w : ι)
  | evSetPriority (w : Watcher ι) (pri : Fin numpri)
  | evFeedEvent (w : Watcher ι) (revents : Revents)
  | evClearPending (w : Watcher ι)
  | evFeedFdEvent (fd : Nat) (revents : Revents)
  | fdEvent (fd : Nat) (revents : Revents)
  | fdKill (fd : Nat)
  | fdReify
  | evFeedSignal (n : Nat)
  | pipecb
  | timeUpdate (mnNow : τ)
  | timersReify
  | invoke (pri : Fin numpri)
  deriving DecidableEq

namespace Loop

section Step

variable [DecidableEq ι] [LinearOrder τ] [Add τ] [Sub τ] [Zero τ]

/-- A loop with no active watcher; the array of the timer heap holds anything. -/
def init (abspri : Watcher ι → Fin numpri) (mnNow : τ) (heap : Nat → Anhe ι τ) :
    Loop ι τ where
  queue := .new abspri
  timers :=
    { timers := { heap, active := fun _ => 0 }
      timercnt := 0, evAt := fun _ => 0, evRepeat := fun _ => 0, mnNow }
  fds :=
    { active := fun _ => 0, fd := fun _ => -1, events := fun _ => 0
      anfds := fun _ => ⟨[], 0, 0⟩, fdchanges := [], interest := fun _ => 0 }
  signals :=
    { active := fun _ => 0, signum := fun _ => 0, head := fun _ => []
      pending := fun _ => false, handled := fun _ => false, sigPending := false }
  activecnt := 0

/-- `ev_io_set`. -/
def evIoSet (l : Loop ι τ) (w : ι) (fd : Int) (events : Revents) : Loop ι τ :=
  { l with fds := { l.fds with
    fd := Function.update l.fds.fd w fd
    events := Function.update l.fds.events w (events ||| evIofdset) } }

/-- `ev_signal_set`. -/
def evSignalSet (l : Loop ι τ) (w : ι) (signum : Int) : Loop ι τ :=
  { l with signals := { l.signals with signum := Function.update l.signals.signum w signum } }

/-- `ev_timer_set`. -/
def evTimerSet (l : Loop ι τ) (w : ι) (after evRepeat : τ) : Loop ι τ :=
  { l with timers := { l.timers with
    evAt := Function.update l.timers.evAt w after
    evRepeat := Function.update l.timers.evRepeat w evRepeat } }

/-- The member `repeat` may be set at any time. -/
def setRepeat (l : Loop ι τ) (w : ι) (evRepeat : τ) : Loop ι τ :=
  { l with timers := { l.timers with
    evRepeat := Function.update l.timers.evRepeat w evRepeat } }

/-- The last slot of a priority is invoked; nothing happens for the dummy. -/
def invoke (l : Loop ι τ) (pri : Fin numpri) :
    Option (Loop ι τ × List (Watcher ι × Revents)) :=
  match l.queue.takeLast pri with
  | none => none
  | some (⟨some w, revents⟩, queue) => some ({ l with queue }, [(w, revents)])
  | some (⟨none, _⟩, queue) => some ({ l with queue }, [])

/-- The steps of the loop, with the callbacks that they make. A watcher is set only while it
is not active, and gets its priority only while it is not pending either. -/
def step : Transition.StepFn (Loop ι τ) (LoopAct ι τ) Fault (Watcher ι × Revents) :=
  fun l i =>
    match i with
    | .evIoSet w fd events =>
      if l.fds.active w = 0 then some (.ok (l.evIoSet w fd events, [])) else none
    | .evIoStart w => some ((l.evIoStart w).map (·, []))
    | .evIoStop w => some ((l.evIoStop w).map (·, []))
    | .evSignalSet w signum =>
      if l.signals.active w = 0 then some (.ok (l.evSignalSet w signum, [])) else none
    | .evSignalStart w => some ((l.evSignalStart w).map (·, []))
    | .evSignalStop w => some (.ok (l.evSignalStop w, []))
    | .evTimerSet w after evRepeat =>
      if l.timers.timers.active w = 0 then some (.ok (l.evTimerSet w after evRepeat, []))
      else none
    | .setRepeat w evRepeat => some (.ok (l.setRepeat w evRepeat, []))
    | .evTimerStart w => some ((l.evTimerStart w).map (·, []))
    | .evTimerStop w => some ((l.evTimerStop w).map (·, []))
    | .evTimerAgain w => some ((l.evTimerAgain w).map (·, []))
    | .evSetPriority w pri =>
      if l.active w = 0 ∧ l.queue.pending w = 0 then
        some (.ok ({ l with queue := l.queue.evSetPriority w pri }, []))
      else none
    | .evFeedEvent w revents => some (.ok (l.evFeedEvent w revents, []))
    | .evClearPending w => some (.ok (l.clearPending w, []))
    | .evFeedFdEvent fd revents => some (.ok (l.fdEventNocheck fd revents, []))
    | .fdEvent fd revents => some (.ok (l.fdEvent fd revents, []))
    | .fdKill fd => some ((l.fdKill fd).map (·, []))
    | .fdReify => some (.ok (l.fdReify, []))
    | .evFeedSignal n => some (.ok ({ l with signals := l.signals.evFeedSignal n }, []))
    | .pipecb => some (.ok (l.pipecb, []))
    | .timeUpdate mnNow => some (.ok ({ l with timers := { l.timers with mnNow } }, []))
    | .timersReify => some (l.timersReify.map (·, []))
    | .invoke pri => (l.invoke pri).map .ok

end Step

/-! ## The invariant -/

/-- All parts of the loop are sound. -/
structure Sound [LinearOrder τ] (l : Loop ι τ) : Prop where
  queue : l.queue.Sound
  timers : l.timers.Sound
  listed : l.fds.Listed
  synced : l.fds.Synced
  signals : l.signals.Sound
  counted : l.Counted

section Parts

variable [LinearOrder τ] {l l' : Loop ι τ} {w : ι}

theorem init_sound [Zero τ] (abspri : Watcher ι → Fin numpri) (mnNow : τ)
    (heap : Nat → Anhe ι τ) : (init abspri mnNow heap).Sound := by
  have hempty : ∀ k, ¬Heap.Used 0 k := by
    intro k hk
    have hlo := hk.1
    have hhi := hk.2
    omega
  constructor
  · exact Pendings.new_sound abspri
  · refine ⟨fun k hk => absurd hk (hempty k), fun j hj hjn => ?_, fun w a => ?_⟩
    · exact absurd ⟨Nat.le_of_lt hj, hjn⟩ (hempty j)
    · refine iff_of_false ?_ fun h => (Timers.armed_eq_some.mp h).1 rfl
      rintro ⟨k, hk, -⟩
      exact hempty k hk
  · exact ⟨fun w fd => by simp [init], fun fd => List.nodup_nil, fun w h => absurd rfl h,
      fun w h => absurd rfl h, fun w h => absurd rfl h⟩
  · exact ⟨fun fd => by simp [init], List.nodup_nil, fun fd _ => rfl, fun fd => rfl⟩
  · exact ⟨fun w n => by simp [init], fun n => List.nodup_nil, fun w h => absurd rfl h,
      fun w h => absurd rfl h, fun n => by simp [init]⟩
  · refine ⟨∅, fun w => ?_, rfl⟩
    cases w <;> simp [init, active]

/-- A step that is about the queue alone. -/
theorem Sound.withQueue (h : l.Sound) {queue : Pendings (Watcher ι)} (hq : queue.Sound) :
    { l with queue : Loop ι τ }.Sound :=
  ⟨hq, h.timers, h.listed, h.synced, h.signals, h.counted.same (fun x => by cases x <;> rfl) rfl⟩

/-- A step that leaves the timers alone but for members of those that are not active. -/
theorem Sound.withTimers (h : l.Sound) {timers : Timers ι τ}
    (htimers : timers.timers = l.timers.timers) (hn : timers.timercnt = l.timers.timercnt)
    (hat : ∀ x, l.timers.timers.active x ≠ 0 → timers.evAt x = l.timers.evAt x) :
    { l with timers : Loop ι τ }.Sound := by
  refine ⟨h.queue, (h.timers.of_inactive htimers hn hat).1, h.listed, h.synced, h.signals,
    h.counted.same (fun x => ?_) rfl⟩
  cases x with
  | io x => rfl
  | sig x => rfl
  | timer x => rw [active, active, htimers]

theorem Sound.rearms {g : Option τ} {queue : Pendings (Watcher ι)} [DecidableEq ι] (h : l.Sound)
    (hre : Rearms l l' w g queue) (hq : queue.Sound) : l'.Sound where
  queue := hre.queue ▸ hq
  timers := hre.sound
  listed := hre.fds ▸ h.listed
  synced := hre.fds ▸ h.synced
  signals := hre.signals ▸ h.signals
  counted := hre.counted h.counted

end Parts

/-! ## What a step does -/

/-- The calls that end the program: a watcher with a descriptor, a mask or a signal that does
not exist, a timer with a negative `repeat` that is started or due. -/
inductive Misuse [LinearOrder τ] [Zero τ] (l : Loop ι τ) : LoopAct ι τ → Fault → Prop
  | negativeFd {w : ι} (hw : l.fds.active w = 0) (hfd : l.fds.fd w < 0) :
      Misuse l (.evIoStart w) .negativeFd
  | illegalEventMask {w : ι} (hw : l.fds.active w = 0) (hfd : 0 ≤ l.fds.fd w)
      (hmask : l.fds.events w &&& ~~~(evIofdset ||| evRead ||| evWrite) ≠ 0) :
      Misuse l (.evIoStart w) .illegalEventMask
  | illegalSignal {w : ι} (hw : l.signals.active w = 0)
      (hrange : ¬(0 < l.signals.signum w ∧ l.signals.signum w < evNsig)) :
      Misuse l (.evSignalStart w) .illegalSignal
  | timerStart {w : ι} (hw : l.timers.timers.active w = 0) (hneg : l.timers.evRepeat w < 0) :
      Misuse l (.evTimerStart w) .negativeRepeat
  | timerAgain {w : ι} (hw : l.timers.timers.active w = 0) (hneg : l.timers.evRepeat w < 0) :
      Misuse l (.evTimerAgain w) .negativeRepeat
  | timersReify {w : ι} (hw : l.timers.Due w) (hneg : l.timers.evRepeat w < 0) :
      Misuse l .timersReify .negativeRepeat

section Steps

variable [DecidableEq ι] [LinearOrder τ] [Add τ] [Sub τ] [Zero τ]

/-- What a step that does not fail makes of a sound loop. -/
inductive Moves (l : Loop ι τ) :
    LoopAct ι τ → Loop ι τ → List (Watcher ι × Revents) → Prop
  | ioSet {w fd events} (hw : l.fds.active w = 0) :
      Moves l (.evIoSet w fd events) (l.evIoSet w fd events) []
  | ioStarted {w} (hw : l.fds.active w ≠ 0) : Moves l (.evIoStart w) l []
  | ioStarts {w} {fd : Nat} (hw : l.fds.active w = 0) (hfd : l.fds.fd w = fd)
      (hmask : l.fds.events w &&& ~~~(evIofdset ||| evRead ||| evWrite) = 0) :
      Moves l (.evIoStart w) { l.evRef with fds := l.fds.start w fd } []
  | ioStopped {w} (hw : l.fds.active w = 0) :
      Moves l (.evIoStop w) (l.clearPending (.io w)) []
  | ioStops {w} {fd : Nat} (hw : l.fds.active w ≠ 0) (hfd : l.fds.fd w = fd) :
      Moves l (.evIoStop w) { (l.clearPending (.io w)).evUnref with fds := l.fds.stop w fd } []
  | sigSet {w signum} (hw : l.signals.active w = 0) :
      Moves l (.evSignalSet w signum) (l.evSignalSet w signum) []
  | sigStarted {w} (hw : l.signals.active w ≠ 0) : Moves l (.evSignalStart w) l []
  | sigStarts {w} {n : Nat} (hw : l.signals.active w = 0) (hn : l.signals.signum w = n + 1)
      (hrange : l.signals.signum w < evNsig) :
      Moves l (.evSignalStart w) { l.evRef with signals := l.signals.start w n } []
  | sigStopped {w} (hw : l.signals.active w = 0) :
      Moves l (.evSignalStop w) (l.clearPending (.sig w)) []
  | sigStops {w} {n : Nat} (hw : l.signals.active w ≠ 0) (hn : l.signals.signum w = n + 1) :
      Moves l (.evSignalStop w)
        { (l.clearPending (.sig w)).evUnref with signals := l.signals.stop w n } []
  | timerSet {w after evRepeat} (hw : l.timers.timers.active w = 0) :
      Moves l (.evTimerSet w after evRepeat) (l.evTimerSet w after evRepeat) []
  | setRepeat {w evRepeat} : Moves l (.setRepeat w evRepeat) (l.setRepeat w evRepeat) []
  | timerStarted {w} (hw : l.timers.timers.active w ≠ 0) : Moves l (.evTimerStart w) l []
  | timerStarts {w l'} (hw : l.timers.timers.active w = 0)
      (hre : Rearms l l' w (some (l.timers.evAt w + l.timers.mnNow)) l.queue) :
      Moves l (.evTimerStart w) l' []
  | timerStops {w l'} (hre : Rearms l l' w none (l.queue.clearPending (.timer w))) :
      Moves l (.evTimerStop w) l' []
  | timerAgain {w l' g} (hg : Again l.timers w g)
      (hre : Rearms l l' w g (l.queue.clearPending (.timer w))) :
      Moves l (.evTimerAgain w) l' []
  | setPriority {w pri} (hw : l.active w = 0 ∧ l.queue.pending w = 0) :
      Moves l (.evSetPriority w pri) { l with queue := l.queue.evSetPriority w pri } []
  | feedEvent {w revents} : Moves l (.evFeedEvent w revents) (l.evFeedEvent w revents) []
  | clears {w} : Moves l (.evClearPending w) (l.clearPending w) []
  | feedFdEvent {fd revents} :
      Moves l (.evFeedFdEvent fd revents) (l.fdEventNocheck fd revents) []
  | fdEvent {fd revents} (hfd : (l.fds.anfds fd).reify = 0) :
      Moves l (.fdEvent fd revents) (l.fdEventNocheck fd revents) []
  | fdChanged {fd revents} (hfd : (l.fds.anfds fd).reify ≠ 0) :
      Moves l (.fdEvent fd revents) l []
  | fdKill {fd l'} (hkilled : Killed l l' fd) : Moves l (.fdKill fd) l' []
  | fdReify : Moves l .fdReify l.fdReify []
  | feedSignal {n} :
      Moves l (.evFeedSignal n) { l with signals := l.signals.evFeedSignal n } []
  | pipecb : Moves l .pipecb l.pipecb []
  | timeUpdate {mnNow} :
      Moves l (.timeUpdate mnNow) { l with timers := { l.timers with mnNow } } []
  | timersReify {l' rfeeds} (hre : Reified l l' rfeeds) :
      Moves l .timersReify
        { l' with queue := l'.queue.feedAll (rfeeds.map .timer) evTimer } []
  | invokeDummy {pri revents queue}
      (htake : l.queue.takeLast pri = some (⟨none, revents⟩, queue)) :
      Moves l (.invoke pri) { l with queue } []
  | invoke {pri w revents queue}
      (htake : l.queue.takeLast pri = some (⟨some w, revents⟩, queue)) :
      Moves l (.invoke pri) { l with queue } [(w, revents)]

variable {l l' : Loop ι τ} {w : ι} {i : LoopAct ι τ} {evs : List (Watcher ι × Revents)}

/-- A step of a sound loop fails on a misuse, or does what `Moves` says. -/
theorem Sound.step_cases {r : Except Fault (Loop ι τ × List (Watcher ι × Revents))} (h : l.Sound)
    (hstep : step l i = some r) :
    (∃ e, r = .error e ∧ Misuse l i e) ∨ ∃ l' evs, r = .ok (l', evs) ∧ Moves l i l' evs := by
  cases i with
  | evIoSet w fd events =>
      by_cases hw : l.fds.active w = 0
      · exact .inr ⟨_, _, Option.some.inj (hstep.symm.trans (if_pos hw)), .ioSet hw⟩
      · cases (if_neg hw).symm.trans hstep
  | evIoStart w =>
      have hr := Option.some.inj hstep
      rw [← hr, evIoStart]
      by_cases hw : l.fds.active w = 0
      · rw [if_neg (not_not.mpr hw)]
        by_cases hfd : l.fds.fd w < 0
        · rw [if_pos hfd]
          exact .inl ⟨_, rfl, .negativeFd hw hfd⟩
        · rw [if_neg hfd]
          have hnat := (Int.toNat_of_nonneg (not_lt.mp hfd)).symm
          split
          next hmask => exact .inl ⟨_, rfl, .illegalEventMask hw (not_lt.mp hfd) hmask⟩
          next hmask => exact .inr ⟨_, _, rfl, .ioStarts hw hnat (not_not.mp hmask)⟩
      · rw [if_pos hw]
        exact .inr ⟨_, _, rfl, .ioStarted hw⟩
  | evIoStop w =>
      have hr := Option.some.inj hstep
      rw [← hr]
      by_cases hw : l.fds.active w = 0
      · have hstop : l.evIoStop w = .ok (l.clearPending (.io w)) := if_pos hw
        rw [hstop]
        exact .inr ⟨_, _, rfl, .ioStopped hw⟩
      · have hnat := (Int.toNat_of_nonneg (h.listed.nonneg w hw)).symm
        rw [evIoStop_eq hnat hw]
        exact .inr ⟨_, _, rfl, .ioStops hw hnat⟩
  | evSignalSet w signum =>
      by_cases hw : l.signals.active w = 0
      · exact .inr ⟨_, _, Option.some.inj (hstep.symm.trans (if_pos hw)), .sigSet hw⟩
      · cases (if_neg hw).symm.trans hstep
  | evSignalStart w =>
      have hr := Option.some.inj hstep
      rw [← hr, evSignalStart]
      by_cases hw : l.signals.active w = 0
      · rw [if_neg (not_not.mpr hw)]
        split
        next hrange => exact .inl ⟨_, rfl, .illegalSignal hw hrange⟩
        next hrange =>
          rw [not_not] at hrange
          have hnum : l.signals.signum w = (l.signals.signum w - 1).toNat + 1 := by omega
          exact .inr ⟨_, _, rfl, .sigStarts hw hnum hrange.2⟩
      · rw [if_pos hw]
        exact .inr ⟨_, _, rfl, .sigStarted hw⟩
  | evSignalStop w =>
      have hr := Option.some.inj hstep
      rw [← hr]
      by_cases hw : l.signals.active w = 0
      · have hstop : l.evSignalStop w = l.clearPending (.sig w) := if_pos hw
        rw [hstop]
        exact .inr ⟨_, _, rfl, .sigStopped hw⟩
      · have hrange := h.signals.range w hw
        have hnum : l.signals.signum w = (l.signals.signum w - 1).toNat + 1 := by omega
        have hstop : l.evSignalStop w = { (l.clearPending (.sig w)).evUnref with
            signals := l.signals.stop w (l.signals.signum w - 1).toNat } := if_neg hw
        rw [hstop]
        exact .inr ⟨_, _, rfl, .sigStops hw hnum⟩
  | evTimerSet w after evRepeat =>
      by_cases hw : l.timers.timers.active w = 0
      · exact .inr ⟨_, _, Option.some.inj (hstep.symm.trans (if_pos hw)), .timerSet hw⟩
      · cases (if_neg hw).symm.trans hstep
  | setRepeat w evRepeat => exact .inr ⟨_, _, (Option.some.inj hstep).symm, .setRepeat⟩
  | evTimerStart w =>
      have hr := Option.some.inj hstep
      rw [← hr]
      rcases evTimerStart_cases (w := w) h.timers with
        ⟨hw, hsame⟩ | ⟨hw, hneg, herror⟩ | ⟨hw, l', hok, hre⟩
      · rw [hsame]
        exact .inr ⟨_, _, rfl, .timerStarted hw⟩
      · rw [herror]
        exact .inl ⟨_, rfl, .timerStart hw hneg⟩
      · rw [hok]
        exact .inr ⟨_, _, rfl, .timerStarts hw hre⟩
  | evTimerStop w =>
      obtain ⟨l', hok, hre⟩ := evTimerStop_rearms h.timers w
      have hr := Option.some.inj hstep
      rw [← hr, hok]
      exact .inr ⟨_, _, rfl, .timerStops hre⟩
  | evTimerAgain w =>
      have hr := Option.some.inj hstep
      rw [← hr]
      rcases evTimerAgain_cases h.timers w with ⟨hw, hneg, herror⟩ | ⟨l', g, hok, hg, hre⟩
      · rw [herror]
        exact .inl ⟨_, rfl, .timerAgain hw hneg⟩
      · rw [hok]
        exact .inr ⟨_, _, rfl, .timerAgain hg hre⟩
  | evSetPriority w pri =>
      by_cases hw : l.active w = 0 ∧ l.queue.pending w = 0
      · exact .inr ⟨_, _, Option.some.inj (hstep.symm.trans (if_pos hw)), .setPriority hw⟩
      · cases (if_neg hw).symm.trans hstep
  | evFeedEvent w revents => exact .inr ⟨_, _, (Option.some.inj hstep).symm, .feedEvent⟩
  | evClearPending w => exact .inr ⟨_, _, (Option.some.inj hstep).symm, .clears⟩
  | evFeedFdEvent fd revents => exact .inr ⟨_, _, (Option.some.inj hstep).symm, .feedFdEvent⟩
  | fdEvent fd revents =>
      have hr := Option.some.inj hstep
      rw [← hr, fdEvent]
      split
      next hfd => exact .inr ⟨_, _, rfl, .fdEvent hfd⟩
      next hfd => exact .inr ⟨_, _, rfl, .fdChanged hfd⟩
  | fdKill fd =>
      obtain ⟨l', hok, hkilled⟩ := fdKill_killed h.listed h.synced h.queue fd
      have hr := Option.some.inj hstep
      rw [← hr, hok]
      exact .inr ⟨_, _, rfl, .fdKill hkilled⟩
  | fdReify => exact .inr ⟨_, _, (Option.some.inj hstep).symm, .fdReify⟩
  | evFeedSignal n => exact .inr ⟨_, _, (Option.some.inj hstep).symm, .feedSignal⟩
  | pipecb => exact .inr ⟨_, _, (Option.some.inj hstep).symm, .pipecb⟩
  | timeUpdate mnNow => exact .inr ⟨_, _, (Option.some.inj hstep).symm, .timeUpdate⟩
  | timersReify =>
      have hr := Option.some.inj hstep
      rw [← hr]
      rcases timersReify_cases h.timers with ⟨herror, hneg⟩ | ⟨l', rfeeds, hok, hre⟩
      · obtain ⟨w, hw⟩ := not_forall.mp hneg
        obtain ⟨hdue, hlt⟩ := Classical.not_imp.mp hw
        rw [herror]
        exact .inl ⟨_, rfl, .timersReify hdue (not_le.mp hlt)⟩
      · rw [hok]
        exact .inr ⟨_, _, rfl, .timersReify hre⟩
  | invoke pri =>
      obtain ⟨q, hinvoke, rfl⟩ := Option.map_eq_some_iff.mp hstep
      unfold Loop.invoke at hinvoke
      split at hinvoke
      next => cases hinvoke
      next htake => exact .inr ⟨_, _, congrArg _ (Option.some.inj hinvoke).symm, .invoke htake⟩
      next htake =>
        exact .inr ⟨_, _, congrArg _ (Option.some.inj hinvoke).symm, .invokeDummy htake⟩

theorem Sound.moves (h : l.Sound) (hstep : step l i = some (.ok (l', evs))) :
    Moves l i l' evs := by
  rcases h.step_cases hstep with ⟨e, herror, -⟩ | ⟨l₁, evs₁, hok, hmoves⟩
  · cases herror
  · cases hok
    exact hmoves

/-- A step fails on the misuses of the API and on nothing else. -/
theorem Sound.step_error_iff {e : Fault} (h : l.Sound) :
    step l i = some (.error e) ↔ Misuse l i e := by
  constructor
  · intro hstep
    rcases h.step_cases hstep with ⟨e', herror, hmisuse⟩ | ⟨l₁, evs₁, hok, -⟩
    · cases herror
      exact hmisuse
    · cases hok
  · intro hmisuse
    have hmap : ∀ {x : Except Fault (Loop ι τ)}, x = .error e →
        some (x.map (·, ([] : List (Watcher ι × Revents)))) = some (.error e) := by
      rintro x rfl
      rfl
    cases hmisuse with
    | negativeFd hw hfd =>
        refine hmap ?_
        rw [evIoStart, if_neg (not_not.mpr hw), if_pos hfd]
    | illegalEventMask hw hfd hmask =>
        refine hmap ?_
        rw [evIoStart, if_neg (not_not.mpr hw), if_neg (not_lt.mpr hfd), if_pos hmask]
    | illegalSignal hw hrange =>
        refine hmap ?_
        rw [evSignalStart, if_neg (not_not.mpr hw), if_pos hrange]
    | timerStart hw hneg =>
        refine hmap ?_
        rw [evTimerStart, if_neg (not_not.mpr hw), if_pos hneg]
    | timerAgain hw hneg => exact hmap (evTimerAgain_error hw hneg)
    | timersReify hdue hneg =>
        rcases timersReify_cases h.timers with ⟨herror, -⟩ | ⟨l₁, rfeeds, -, hre⟩
        · exact hmap herror
        · exact absurd hneg (not_lt.mpr (hre.repeats _ hdue))

end Steps

/-! ## Every step keeps the invariant -/

section Invariant

variable [DecidableEq ι] [LinearOrder τ] {l l' : Loop ι τ} {w : ι} {fd n : Nat}

theorem Sound.ioStart (h : l.Sound) (hw : l.fds.active w = 0) (hfd : l.fds.fd w = fd)
    (hmask : l.fds.events w &&& ~~~(evIofdset ||| evRead ||| evWrite) = 0) :
    { l.evRef with fds := l.fds.start w fd }.Sound := by
  refine ⟨h.queue, h.timers, h.listed.start hw hfd hmask, h.synced.start h.listed hw,
    h.signals, h.counted.start (w := .io w) hw (fun x => ?_) rfl⟩
  cases x with
  | io x =>
      by_cases hx : x = w
      · simp [active, Fds.start, Fds.fdChange, hx]
      · simp [active, Fds.start, Fds.fdChange, hx]
  | sig x => simp [active, evRef]
  | timer x => simp [active, evRef]

theorem Sound.ioStop (h : l.Sound) (hw : l.fds.active w ≠ 0) (hfd : l.fds.fd w = fd) :
    { (l.clearPending (.io w)).evUnref with fds := l.fds.stop w fd }.Sound := by
  refine ⟨h.queue.clearPending, h.timers, h.listed.stop hfd, h.synced.stop, h.signals,
    h.counted.stop (w := .io w) hw (fun x => ?_) rfl⟩
  cases x with
  | io x =>
      by_cases hx : x = w
      · simp [active, Fds.stop, Fds.fdChange, hx]
      · simp [active, Fds.stop, Fds.fdChange, hx]
  | sig x => simp [active, evUnref, clearPending]
  | timer x => simp [active, evUnref, clearPending]

theorem Sound.evIoSet (h : l.Sound) (hw : l.fds.active w = 0) (fd : Int) (events : Revents) :
    (l.evIoSet w fd events).Sound := by
  have hne : ∀ v, l.fds.active v ≠ 0 → v ≠ w := fun v hv heq => hv (heq ▸ hw)
  refine ⟨h.queue, h.timers,
    ⟨fun v x => ?_, h.listed.nodup, h.listed.one, fun v hv => ?_, fun v hv => ?_⟩,
    ⟨h.synced.changes, h.synced.nodup, fun x hx => ?_, h.synced.interest⟩, h.signals,
    h.counted.same (fun x => by cases x <;> rfl) rfl⟩
  · refine (h.listed.head v x).trans ?_
    refine and_congr_right fun hv => ?_
    simp only [Loop.evIoSet, Function.update_of_ne (hne v hv)]
  · simp only [Loop.evIoSet, Function.update_of_ne (hne v hv)]
    exact h.listed.mask v hv
  · simp only [Loop.evIoSet, Function.update_of_ne (hne v hv)]
    exact h.listed.nonneg v hv
  · refine (h.synced.events x hx).trans (Fds.unionOf_congr fun v hv => ?_)
    have hv' := ((h.listed.head v x).mp hv).1
    simp only [Loop.evIoSet, Function.update_of_ne (hne v hv')]

omit [DecidableEq ι] in
theorem Sound.fdReify (h : l.Sound) : l.fdReify.Sound := by
  refine ⟨h.queue, h.timers, h.listed.fdReify h.synced, h.synced.fdReify.1, h.signals,
    h.counted.same (fun x => ?_) rfl⟩
  cases x with
  | io x => rw [active, active, Loop.fdReify, h.synced.fdReify_same.1]
  | sig x => rfl
  | timer x => rfl

theorem Sound.fdEventNocheck (h : l.Sound) (fd : Nat) (revents : Revents) :
    (l.fdEventNocheck fd revents).Sound := by
  rw [fdEventNocheck_eq]
  refine h.withQueue (h.queue.feedSome ?_).1
  rw [List.map_map]
  exact (h.listed.nodup fd).map fun _ _ => Watcher.io.inj

theorem Sound.killed (h : l.Sound) (hkilled : Killed l l' fd) : l'.Sound := by
  have hnodup : ((l.fds.anfds fd).head.map Watcher.io).Nodup :=
    (h.listed.nodup fd).map fun _ _ => Watcher.io.inj
  refine ⟨hkilled.sound, hkilled.timers ▸ h.timers, hkilled.listed, hkilled.synced,
    hkilled.signals ▸ h.signals, h.counted.stopAll hnodup ?_ (fun x => ?_) ?_⟩
  · intro x hx
    obtain ⟨w, hw, rfl⟩ := List.mem_map.mp hx
    exact ((h.listed.head w fd).mp hw).1
  · cases x with
    | io x =>
        rw [active, hkilled.active, List.mem_map_of_injective fun _ _ => Watcher.io.inj]
        by_cases hx : x ∈ (l.fds.anfds fd).head <;> simp [hx, active]
    | sig x => simp [active, hkilled.signals]
    | timer x => simp [active, hkilled.timers]
  · rw [hkilled.activecnt, List.length_map]

theorem Sound.evSignalSet (h : l.Sound) (hw : l.signals.active w = 0) (signum : Int) :
    (l.evSignalSet w signum).Sound := by
  have hne : ∀ v, l.signals.active v ≠ 0 → v ≠ w := fun v hv heq => hv (heq ▸ hw)
  refine ⟨h.queue, h.timers, h.listed, h.synced,
    ⟨fun v n => ?_, h.signals.nodup, h.signals.one, fun v hv => ?_, h.signals.handled⟩,
    h.counted.same (fun x => by cases x <;> rfl) rfl⟩
  · refine (h.signals.head v n).trans ?_
    refine and_congr_right fun hv => ?_
    simp only [Loop.evSignalSet, Function.update_of_ne (hne v hv)]
  · simp only [Loop.evSignalSet, Function.update_of_ne (hne v hv)]
    exact h.signals.range v hv

theorem Sound.sigStart (h : l.Sound) (hw : l.signals.active w = 0)
    (hn : l.signals.signum w = n + 1) (hrange : l.signals.signum w < evNsig) :
    { l.evRef with signals := l.signals.start w n }.Sound := by
  refine ⟨h.queue, h.timers, h.listed, h.synced, h.signals.start hw hn hrange,
    h.counted.start (w := .sig w) hw (fun x => ?_) rfl⟩
  cases x with
  | io x => simp [active, evRef]
  | sig x =>
      by_cases hx : x = w
      · simp [active, Signals.start, hx]
      · simp [active, Signals.start, hx]
  | timer x => simp [active, evRef]

theorem Sound.sigStop (h : l.Sound) (hw : l.signals.active w ≠ 0)
    (hn : l.signals.signum w = n + 1) :
    { (l.clearPending (.sig w)).evUnref with signals := l.signals.stop w n }.Sound := by
  refine ⟨h.queue.clearPending, h.timers, h.listed, h.synced, h.signals.stop hn,
    h.counted.stop (w := .sig w) hw (fun x => ?_) rfl⟩
  cases x with
  | io x => simp [active, evUnref, clearPending]
  | sig x =>
      by_cases hx : x = w
      · simp [active, Signals.stop, hx]
      · simp [active, Signals.stop, hx]
  | timer x => simp [active, evUnref, clearPending]

omit [DecidableEq ι] in
/-- What was caught and not fed yet does not matter. -/
theorem Sound.withSignals (h : l.Sound) {signals : Signals ι}
    (hactive : signals.active = l.signals.active) (hsignum : signals.signum = l.signals.signum)
    (hhead : signals.head = l.signals.head) (hhandled : signals.handled = l.signals.handled) :
    { l with signals : Loop ι τ }.Sound := by
  have hold := h.signals
  refine ⟨h.queue, h.timers, h.listed, h.synced, ⟨?_, ?_, ?_, ?_, ?_⟩, ?_⟩
  · rw [hactive, hsignum, hhead]
    exact hold.head
  · rw [hhead]
    exact hold.nodup
  · rw [hactive]
    exact hold.one
  · rw [hactive, hsignum]
    exact hold.range
  · rw [hhead, hhandled]
    exact hold.handled
  · refine h.counted.same (fun x => ?_) rfl
    cases x with
    | io x => rfl
    | sig x => rw [active, active, hactive]
    | timer x => rfl

omit [DecidableEq ι] in
theorem Sound.evFeedSignal (h : l.Sound) (n : Nat) :
    { l with signals := l.signals.evFeedSignal n }.Sound := by
  unfold Signals.evFeedSignal
  split
  · exact h
  · exact h.withSignals rfl rfl rfl rfl

theorem Sound.pipecb (h : l.Sound) : l.pipecb.Sound := by
  by_cases hcaught : l.signals.sigPending = true
  · have hfed := pipecb_fed h.queue h.signals hcaught
    rw [hfed.rest]
    exact (h.withQueue hfed.sound).withSignals rfl rfl rfl rfl
  · rw [Loop.pipecb, if_neg hcaught]
    exact h

variable [Add τ] [Sub τ] [Zero τ] {i : LoopAct ι τ} {evs : List (Watcher ι × Revents)}

omit [Sub τ] in
theorem Sound.reified {rfeeds : List ι} (h : l.Sound) (hre : Reified l l' rfeeds) :
    { l' with queue := l'.queue.feedAll (rfeeds.map .timer) evTimer }.Sound := by
  have hclear : l'.queue.Sound := hre.queue ▸ (h.queue.clearAll _).1
  refine ⟨(hclear.feedAll _ _).1, hre.sound, ?_, ?_, ?_, ?_⟩
  · exact hre.fds ▸ h.listed
  · exact hre.fds ▸ h.synced
  · exact hre.signals ▸ h.signals
  · exact (hre.counted h.counted).same (fun x => by cases x <;> rfl) rfl

omit [Sub τ] in
theorem Moves.sound (hm : Moves l i l' evs) (h : l.Sound) : l'.Sound := by
  cases hm with
  | ioSet hw => exact h.evIoSet hw _ _
  | ioStarted => exact h
  | ioStarts hw hfd hmask => exact h.ioStart hw hfd hmask
  | ioStopped => exact h.withQueue h.queue.clearPending
  | ioStops hw hfd => exact h.ioStop hw hfd
  | sigSet hw => exact h.evSignalSet hw _
  | sigStarted => exact h
  | sigStarts hw hn hrange => exact h.sigStart hw hn hrange
  | sigStopped => exact h.withQueue h.queue.clearPending
  | sigStops hw hn => exact h.sigStop hw hn
  | timerSet hw =>
      refine h.withTimers rfl rfl fun x hx => ?_
      have hne : x ≠ _ := fun heq => hx (heq ▸ hw)
      exact Function.update_of_ne hne ..
  | setRepeat => exact h.withTimers rfl rfl fun _ _ => rfl
  | timerStarted => exact h
  | timerStarts hw hre => exact h.rearms hre h.queue
  | timerStops hre => exact h.rearms hre h.queue.clearPending
  | timerAgain hg hre => exact h.rearms hre h.queue.clearPending
  | setPriority hw => exact h.withQueue (h.queue.evSetPriority hw.2 _).1
  | feedEvent => exact h.withQueue h.queue.evFeedEvent
  | clears => exact h.withQueue h.queue.clearPending
  | feedFdEvent => exact h.fdEventNocheck _ _
  | fdEvent => exact h.fdEventNocheck _ _
  | fdChanged => exact h
  | fdKill hkilled => exact h.killed hkilled
  | fdReify => exact h.fdReify
  | feedSignal => exact h.evFeedSignal _
  | pipecb => exact h.pipecb
  | timeUpdate => exact h.withTimers rfl rfl fun _ _ => rfl
  | timersReify hre => exact h.reified hre
  | invokeDummy htake => exact h.withQueue (h.queue.takeLast_dummy htake).1
  | invoke htake => exact h.withQueue (h.queue.takeLast_watcher htake).1

omit [Sub τ] in
/-- Only `time_update` sets the clock. -/
theorem Moves.mnNow (hm : Moves l i l' evs) (hi : ∀ mnNow, i ≠ .timeUpdate mnNow) :
    l'.timers.mnNow = l.timers.mnNow := by
  cases hm with
  | timerStarts hw hre => exact hre.mnNow
  | timerStops hre => exact hre.mnNow
  | timerAgain hg hre => exact hre.mnNow
  | feedFdEvent => rw [fdEventNocheck_eq]
  | fdEvent => rw [fdEventNocheck_eq]
  | fdKill hkilled => rw [hkilled.timers]
  | pipecb => rw [pipecb_timers]
  | timeUpdate => exact absurd rfl (hi _)
  | timersReify hre => exact hre.mnNow
  | _ => rfl

theorem Sound.step (h : l.Sound) (hstep : Loop.step l i = some (.ok (l', evs))) : l'.Sound :=
  (h.moves hstep).sound h

end Invariant

end Loop

end BoostCoro.Libev
