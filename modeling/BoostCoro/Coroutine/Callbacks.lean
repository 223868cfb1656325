import BoostCoro.Coroutine.WaitEnds
/-!
# Whom the callbacks are for

A wait registers its event for the coroutine that makes it, which is not in DONE. If
no coroutine comes to DONE while an event is registered for it, then none is destroyed
while one is.
-/

namespace BoostCoro.Coroutine

variable {s s' : State} {a : Act} {evs tr : List Obs}

/-- No coroutine comes to DONE in this step that has an event registered. -/
def EndsClear (s : State) (_ : Act) : Prop :=
  ∀ b ∈ s.reactor.eventAllocator.held, ∀ e ∈ s.reactor.event b,
    e.active = true → ¬ s.Ending e.evArg

instance (s : Sched) (c : CoroId) : Decidable (s.Ending c) :=
  inferInstanceAs (Decidable (_ ∧ _ ∧ _))

instance (s : State) (a : Act) : Decidable (EndsClear s a) := by
  unfold EndsClear
  infer_instance

/-- The runs whose callbacks are safe, however control moves. -/
def ClearDriven (s : State) (a : Act) : Prop := WaitsOwn s a ∧ EndsClear s a

instance (s : State) (a : Act) : Decidable (ClearDriven s a) :=
  inferInstanceAs (Decidable (_ ∧ _))

/-- Each registered event is for a coroutine that has not ended. -/
structure Callable (s : State) : Prop where
  held : EventsHeld s.reactor
  arg : ∀ b e, s.reactor.event b = some e → e.active = true →
    e.evArg ∈ s.pool ∧ s.stat e.evArg ≠ coroStatDone

theorem callable_init : Callable State.init where
  held := eventsHeld_new
  arg := nofun

theorem Callable.step (h : Callable s) (hinv : SchedInv s.toSched) (hself : WaitsOwn s a)
    (hok : EndsClear s a) (heffect : Effect s a s' evs) : Callable s' := by
  have hreacts := hinv.reacts heffect
  refine ⟨h.held.step hreacts, fun b e he hactive => ?_⟩
  rcases hreacts.event he with ⟨e₀, he₀, hremains⟩ | ⟨u, w, _, _, _, hbegan, _, rfl⟩
  · have hactive₀ := hremains.active hactive
    obtain ⟨hlive, hstat⟩ := h.arg b e₀ he₀ hactive₀
    have hending := hok b (h.held b e₀ he₀).1 e₀ he₀ hactive₀
    rw [hremains.arg]
    exact ⟨(heffect.stays hlive hstat).1, heffect.alive hlive hstat hending⟩
  · have hasleep := (heffect.waitBegan hinv hself hbegan).2
    rw [newEvent_evArg]
    exact ⟨hasleep.live, hasleep.alive⟩

/-- In every run in which no coroutine comes to DONE that has an event registered, the
argument of each callback that is registered or may be made is a coroutine that is not
destroyed. -/
theorem callbacks_live (h : RunOf ClearDriven tr s) :
    ∀ b e, s.reactor.event b = some e →
      (e.active = true → e.evArg ∈ s.pool) ∧
      ∀ revents watcher, e.mayFire revents watcher = true → e.evArg ∈ s.pool := by
  have hboth : SchedInv s.toSched ∧ Callable s := by
    refine Transition.Run.invariant (I := fun s => SchedInv s.toSched ∧ Callable s) ?_ h
      ⟨schedInv_init, callable_init⟩
    rintro s a s' evs ⟨hinv, hcallable⟩ hok hstep
    have heffect := hinv.effect hstep
    exact ⟨hinv.step heffect, hcallable.step hinv hok.1 hok.2 heffect⟩
  intro b e he
  have hlive : e.active = true → e.evArg ∈ s.pool := fun hactive =>
    (hboth.2.arg b e he hactive).1
  exact ⟨hlive, fun revents watcher hmay => hlive ((hboth.2.held b e he).2.active hmay)⟩

/-- Coroutine 0 accepts on descriptor 3, is served and goes on. -/
def acceptsOnce : List Act :=
  enterAlone ++ sleepAlone (.setIo 3 (evRead ||| evPersist) (-1) none) ++
    [.user (.fire 0 .iosig evRead)] ++ wakeAlone ++ [.lib]

theorem callbacks_live_accepts : ∃ tr s e, RunOf ClearDriven tr s ∧
    s.reactor.event 0 = some e ∧ e.active = true ∧ e.evArg ∈ s.pool := by
  have hrun : RunOf ClearDriven _
      (Transition.after State.step ClearDriven State.init acceptsOnce).1 :=
    Transition.run_after (by decide +kernel)
  have he : (Transition.after State.step ClearDriven State.init acceptsOnce).1.reactor.event 0 =
      some ((Event.set 3 (evRead ||| evPersist) 0).add false) := by decide +kernel
  exact ⟨_, _, _, hrun, he, rfl, (callbacks_live hrun _ _ he).1 rfl⟩

/-- Coroutine 0 accepts, ends, and is destroyed by the pass of main. -/
def acceptsAndEnds : List Act := acceptsOnce ++ [.user .return, .lib, .lib, .lib, .lib]

/-- The event of a persistent wait outlives its coroutine, and its callback uses it. -/
theorem callback_after_destroy : ∃ tr s e, RunOf ReactorDriven tr s ∧
    s.reactor.event 0 = some e ∧ e.active = true ∧ e.evArg ∉ s.pool ∧
      s.step (.user (.fire 0 .iosig evRead)) = some (.error .destroyed) := by
  have hfault : Transition.faultAfter State.step ReactorDriven State.init acceptsAndEnds
      (.user (.fire 0 .iosig evRead)) = some .destroyed := by decide +kernel
  obtain ⟨hrun, hstep⟩ := Transition.fault_after hfault
  have he : (Transition.after State.step ReactorDriven State.init
      acceptsAndEnds).1.reactor.event 0 =
      some ((Event.set 3 (evRead ||| evPersist) 0).add false) := by decide +kernel
  have hdead : 0 ∉ (Transition.after State.step ReactorDriven State.init
      acceptsAndEnds).1.pool := by decide +kernel
  exact ⟨_, _, _, hrun, he, rfl, hdead, hstep⟩

end BoostCoro.Coroutine
