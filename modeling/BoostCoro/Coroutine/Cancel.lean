import BoostCoro.Coroutine.Callbacks
/-!
# What `cancel` leaves behind

`cancel` unregisters the event of its coroutine and wakes it up, but its last line looks
the trigger up again after the `erase`: it frees a null pointer, and the entry that the
look-up makes stays.
-/

namespace BoostCoro.Coroutine

variable {s s' : State} {evs : List Obs} {c : CoroId} {b : Block} {r : Coreactor}

/-- What a `cancel` of `c` that removes the wait completely leaves. -/
structure Removed (s : State) (c : CoroId) (s' : State) : Prop where
  entry : s'.reactor.triggers c = none
  others : ∀ d, d ≠ c → s'.reactor.triggers d = s.reactor.triggers d
  unregistered : ∀ b e, s.reactor.triggers c = some (some b) → s'.reactor.event b = some e →
    e.active = false
  awake : s'.chk .evet c coroEvetWait = false
  cancelled : s'.chk .evet c coroEvetCancel = true
  /-- the block is left to the wait that cleans it up, and to nobody else -/
  block : ∀ b, s.reactor.triggers c = some (some b) →
    (b ∈ s'.reactor.eventAllocator.held ↔
      ∃ w, s'.waitIn (some c) = some w ∧ w.event = b ∧ w.spec.persists = false)
  again : s'.cancel (some c) = .ok (s', [])
  next : ∀ fd mask timeout b r, s'.reactor.setIo c fd mask timeout = .ok (b, r) →
    r.event b = some ((WaitSpec.io fd mask timeout).newEvent c)

/-- What `cancel` does to the reactor and to the wait flag when it finds a trigger. -/
theorem State.cancel_trigger (h : s.cancel (some c) = .ok (s', evs))
    (htrigger : s.reactor.triggers c ≠ none) :
    s'.reactor.triggers = Function.update s.reactor.triggers c (some none) ∧
      s'.reactor.eventAllocator = s.reactor.eventAllocator ∧
      (∀ b e, s.reactor.triggers c = some (some b) → s'.reactor.event b = some e →
        e.active = false) ∧
      s'.chk .evet c coroEvetWait = false := by
  rcases State.cancel_ok h with ⟨rfl, rfl⟩ | ⟨d, b, e, hd, hb, _, hwakes, _, hr, _⟩
  · exact absurd (State.cancel_idle h rfl) htrigger
  · obtain rfl : c = d := Option.some.inj hd
    rw [hr]
    refine ⟨rfl, rfl, fun b' e' hb' he' => ?_, hwakes.cleared⟩
    rw [hb] at hb'
    obtain rfl := Option.some.inj (Option.some.inj hb')
    dsimp only at he'
    rw [Function.update_self] at he'
    rw [← Option.some.inj he']
    rfl

/-- After a `cancel`, another one fails. -/
theorem State.cancel_twice (h : s.cancel (some c) = .ok (s', evs))
    (htrigger : s.reactor.triggers c ≠ none) {s'' : State} {evs' : List Obs} :
    s'.cancel (some c) ≠ .ok (s'', evs') := by
  intro h'
  have hentry : s'.reactor.triggers c = some none := by
    rw [(State.cancel_trigger h htrigger).1]
    exact Function.update_self ..
  rcases State.cancel_ok h' with ⟨rfl, rfl⟩ | ⟨d, b, _, hd, hb, _⟩
  · rw [State.cancel_idle h' rfl] at hentry
    cases hentry
  · obtain rfl : c = d := Option.some.inj hd
    rw [hentry] at hb
    cases hb

/-- After a `cancel`, the next `set_io` sets up no event, and its coroutine waits all the
same. -/
theorem State.cancel_then_setIo (h : s.cancel (some c) = .ok (s', evs))
    (htrigger : s.reactor.triggers c ≠ none) {fd : Int} {mask : EventMask} {timeout : Int}
    (hset : s'.reactor.setIo c fd mask timeout = .ok (b, r)) :
    r.event b = none ∧ ∀ b' e, r.event b' = some e → s'.reactor.event b' = some e := by
  have hentry : s'.reactor.triggers c = some none := by
    rw [(State.cancel_trigger h htrigger).1]
    exact Function.update_self ..
  have hstarts : StartsWait s' (.setIo fd mask timeout (some c)) c (.io fd mask timeout) b r :=
    .io rfl hset
  obtain ⟨_, ⟨_, rfl⟩ | ⟨hne, _⟩⟩ := hstarts.taken hentry
  · exact ⟨Function.update_self .., fun b' e he => (update_none_eq_some.mp he).2⟩
  · exact absurd rfl (hne fd mask timeout)

/-- `cancel` of a coroutine that has a trigger never removes its wait completely. -/
theorem cancel_never_removes (htrigger : s.reactor.triggers c ≠ none) :
    ¬ ∃ s' evs, s.cancel (some c) = .ok (s', evs) ∧ Removed s c s' := by
  rintro ⟨s', evs, hcancel, hremoved⟩
  have hentry := hremoved.entry
  rw [(State.cancel_trigger hcancel htrigger).1, Function.update_self] at hentry
  cases hentry

/-- Coroutine 0 accepts on descriptor 3 and sleeps. -/
def accepts : List Act := enterAlone ++ sleepAlone (.setIo 3 (evRead ||| evPersist) (-1) none)

theorem cancel_never_removes_accept : ∃ tr s, RunOf AnyUse tr s ∧ s.reactor.triggers 0 ≠ none ∧
    ¬ ∃ s' evs, s.cancel (some 0) = .ok (s', evs) ∧ Removed s 0 s' := by
  have hrun : RunOf AnyUse _ (Transition.after State.step AnyUse State.init accepts).1 :=
    Transition.run_after (by decide +kernel)
  have htrigger : (Transition.after State.step AnyUse State.init accepts).1.reactor.triggers 0 ≠
      none := by decide +kernel
  exact ⟨_, _, hrun, htrigger, cancel_never_removes htrigger⟩

/-- The runs in which control moves by passes and yields, and each wait is made by the
coroutine it is for. -/
def CancelDriven (s : State) (a : Act) : Prop := TreeDriven s a ∧ WaitsOwn s a

instance (s : State) (a : Act) : Decidable (CancelDriven s a) :=
  inferInstanceAs (Decidable (_ ∧ _))

/-- Main cancels the wait of coroutine 0. -/
def cancelsAccept : List Act := accepts ++ [.user (.cancel (some 0))]

/-- Coroutine 0 goes on after that, and waits to read from descriptor 4. -/
def readsAfterCancel : List Act :=
  cancelsAccept ++ wakeAlone ++ [.lib] ++ sleepAlone (.setIo 4 evRead (-1) none)

/-- A cancelled accept leaves a null trigger and its block, so that a second `cancel` is
given a null pointer; and the next wait of the coroutine has no event that could end it. -/
theorem cancel_leaves_wait :
    (∃ tr s, RunOf CancelDriven tr s ∧ .cancelled 0 ∈ tr ∧
      s.reactor.triggers 0 = some none ∧ 0 ∈ s.reactor.eventAllocator.held ∧
        s.step (.user (.cancel (some 0))) = some (.error .nullPointer)) ∧
    ∃ tr s, RunOf CancelDriven tr s ∧ s.waitIn (some 0) = some ⟨0, .io 4 evRead (-1), 1⟩ ∧
      s.chk .evet 0 coroEvetWait = true ∧
        ∀ b ∈ s.reactor.eventAllocator.held, ∀ e ∈ s.reactor.event b, e.active = false := by
  constructor
  · have hfault : Transition.faultAfter State.step CancelDriven State.init cancelsAccept
        (.user (.cancel (some 0))) = some .nullPointer := by decide +kernel
    obtain ⟨hrun, hstep⟩ := Transition.fault_after hfault
    exact ⟨_, _, hrun, by decide +kernel, by decide +kernel, by decide +kernel, hstep⟩
  · have hrun : RunOf CancelDriven _
        (Transition.after State.step CancelDriven State.init readsAfterCancel).1 :=
      Transition.run_after (by decide +kernel)
    exact ⟨_, _, hrun, by decide +kernel, by decide +kernel, by decide +kernel⟩

end BoostCoro.Coroutine
