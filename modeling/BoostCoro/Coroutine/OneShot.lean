import BoostCoro.Coroutine.WaitEnds
import BoostCoro.Coroutine.Ownership
/-!
# One-shot waits

When no wait persists and none is cancelled, the trigger table is the table of the
waits in progress: a coroutine has a trigger exactly while it is in a wait, and the
callback that lets the wait end is that of its own event.
-/

namespace BoostCoro.Coroutine

/-- No wait is persistent. -/
def NoPersist (_ : State) : Act → Prop
  | .user (.setIo _ mask _ _) => hasBit mask evPersist = false
  | _ => True

instance (s : State) (a : Act) : Decidable (NoPersist s a) := by
  induction a using Act.casesOn with
  | lib => exact instDecidableTrue
  | user u => induction u using User.casesOn <;> unfold NoPersist <;> infer_instance

/-- The tree-driven runs with one-shot waits only. -/
def OneShotDriven (s : State) (a : Act) : Prop :=
  TreeDriven s a ∧ WaitsOwn s a ∧ KeepsWaits s a ∧ NoCancel s a ∧ NoPersist s a

instance (s : State) (a : Act) : Decidable (OneShotDriven s a) :=
  inferInstanceAs (Decidable (_ ∧ _ ∧ _ ∧ _ ∧ _))

variable {s s' : State} {a : Act} {evs tr : List Obs} {c : CoroId} {w : Wait} {b : Block}
  {u : User} {spec : WaitSpec}

theorem StartsWait.noPersist {r : Coreactor} (h : StartsWait s u c spec b r)
    (hok : NoPersist s (.user u)) : spec.persists = false := by
  cases h with
  | io => exact hok
  | timeout => rfl
  | signal => rfl

/-- A tree-driven run resumes no coroutine that is suspended in a `resume`. -/
theorem RunOf.offChain {ok : State → Act → Prop} (himp : ∀ s a, ok s a → TreeDriven s a)
    (h : RunOf ok tr s) : RunOf (fun s a => TransfersOffChain s a ∧ ok s a) tr s := by
  refine (Transition.Run.mono_of_invariant
    (I := fun s => SchedInv s.toSched ∧ ∃ path below, Tree s.toSched path below) ?_ ?_ h
    ⟨schedInv_init, [], [], tree_init⟩).2
  · rintro s a s' evs ⟨hinv, path, below, htree⟩ hok hstep
    obtain ⟨path', below', hstride⟩ := htree.stride hinv (himp s a hok) hstep
    exact ⟨hinv.step (hinv.effect hstep), path', below', hstride.tree'⟩
  · rintro s a ⟨hinv, _, _, htree⟩ hok
    exact ⟨htree.transfersOffChain hinv, hok⟩

/-- The callback for the event of a wait. -/
def Wait.Fired (w : Wait) : Obs → Prop
  | .fired b _ _ c => b = w.event ∧ c = w.coro
  | _ => False

/-- The triggers are the waits in progress, each set up or called back. -/
structure OneShot (tr : List Obs) (s : State) : Prop extends Triggers s where
  once : ∀ w, s.waitIn (some w.coro) = some w → w.spec.persists = false
  waits : ∀ c, s.reactor.triggers c ≠ none → s.waitIn (some c) ≠ none
  armed : ∀ w, s.waitIn (some w.coro) = some w → ∀ e, s.reactor.event w.event = some e →
    e.active = true ∨ ∃ o ∈ sinceWait w.coro tr, w.Fired o

theorem oneShot_init : OneShot [] State.init where
  toTriggers := triggers_init
  once := nofun
  waits := fun _ h => absurd rfl h
  armed := nofun

/-- What a wait still has when another context's wait begins or ends. -/
theorem waitIn_update_ne {v : Option Wait} {x : Ctx}
    (hw : Function.update s.waitIn x v (some w.coro) = some w) (hne : v ≠ some w) :
    x ≠ some w.coro ∧ s.waitIn (some w.coro) = some w := by
  rw [Function.update_apply] at hw
  split at hw
  · exact absurd hw hne
  next hx => exact ⟨fun heq => hx heq.symm, hw⟩

namespace OneShot

/-- In user code the running coroutine has no trigger. -/
theorem untriggered (h : OneShot tr s) (hrun : s.running = some c)
    (hfree : s.waitIn s.running = none) : s.reactor.triggers c = none := by
  by_contra hne
  exact h.waits c hne (hrun ▸ hfree)

theorem pending_some (h : OneShot tr s) (hw : s.waitIn (some w.coro) = some w) :
    s.reactor.triggers w.coro = some (some w.event) :=
  h.pending _ w hw (h.once w hw)

/-- The event of a wait in progress before and after the step. -/
theorem keepsArmed (h : OneShot tr s) (hcourse : Course s a evs s')
    (hw : s.waitIn (some w.coro) = some w)
    (hevent : ∀ e, s'.reactor.event w.event = some e →
      s.reactor.event w.event = some e ∨ ∃ o ∈ evs, w.Fired o) {e : Event}
    (he : s'.reactor.event w.event = some e) :
    e.active = true ∨ ∃ o ∈ sinceWait w.coro (tr ++ evs), w.Fired o := by
  rw [sinceWait_append (hcourse.reacts.noneBegan hcourse.self (by rw [hw]; nofun))]
  rcases hevent e he with hold | ⟨o, ho, hfired⟩
  · rcases h.armed w hw e hold with hactive | ⟨o, ho, hfired⟩
    · exact .inl hactive
    · exact .inr ⟨o, List.mem_append_left _ ho, hfired⟩
  · exact .inr ⟨o, List.mem_append_right _ ho, hfired⟩

theorem begins (h : OneShot tr s) (hcourse : Course s (.user u) evs s')
    (hpersist : NoPersist s (.user u))
    (htriggers : Triggers s')
    (hstarts : StartsWait s u w.coro w.spec w.event s'.reactor) (hfree : s.waitIn s.running = none)
    (hwaits : s'.waitIn = Function.update s.waitIn s.running (some w)) :
    OneShot (tr ++ evs) s' := by
  have hrun := hstarts.self hcourse.self
  obtain ⟨hb, hr⟩ := hstarts.free (h.untriggered hrun hfree)
  rw [hrun] at hwaits
  have hcases : ∀ w', s'.waitIn (some w'.coro) = some w' →
      w = w' ∨ w.coro ≠ w'.coro ∧ s.waitIn (some w'.coro) = some w' := by
    intro w' hw'
    by_cases heq : w = w'
    · exact .inl heq
    · obtain ⟨hne, hold⟩ := waitIn_update_ne (hwaits ▸ hw') fun hsome => heq (Option.some.inj hsome)
      exact .inr ⟨fun hc => hne (congrArg some hc), hold⟩
  refine ⟨htriggers, fun w' hw' => ?_, fun c hc => ?_, fun w' hw' e he => ?_⟩
  · rcases hcases w' hw' with rfl | ⟨_, hold⟩
    · exact hstarts.noPersist hpersist
    · exact h.once w' hold
  · rw [hr] at hc
    dsimp only at hc
    rw [hwaits, Function.update_apply]
    rw [Function.update_apply] at hc
    split
    · nofun
    next hne => exact h.waits c (by rwa [if_neg fun heq => hne (congrArg some heq)] at hc)
  · rcases hcases w' hw' with rfl | ⟨_, hold⟩
    · rw [hr] at he
      dsimp only at he
      rw [Function.update_self] at he
      obtain rfl := Option.some.inj he
      exact .inl (newEvent_active _ _)
    · refine h.keepsArmed hcourse hold (fun e he => .inl ?_) he
      have hheld := (h.table.entry_block (h.pending_some hold)).1
      have hne : w'.event ≠ w.event := by
        rw [hb]
        exact fun heq => h.table.allocator.malloc_fresh (heq ▸ hheld)
      rw [hr] at he
      dsimp only at he
      rwa [Function.update_of_ne hne] at he

theorem ends (h : OneShot tr s)
    (hcourse : Course s .lib [.waitEnded w.coro w.spec w.event] s') (htriggers : Triggers s')
    (hwait : s.waitIn s.running = some w)
    (hwaits : s'.waitIn = Function.update s.waitIn s.running none)
    (hreactor : w.spec.persists = true ∧ s'.reactor = s.reactor ∨
      w.spec.persists = false ∧ s.reactor.release w.coro w.event = .ok s'.reactor) :
    OneShot (tr ++ [.waitEnded w.coro w.spec w.event]) s' := by
  have hrun := h.own _ w hwait
  rw [hrun] at hwait hwaits
  have hpersist := h.once w hwait
  obtain ⟨_, _, _, hr⟩ := Coreactor.release_ok
    (hreactor.resolve_left fun hp => by rw [hpersist] at hp; exact Bool.false_ne_true hp.1).2
  have hold : ∀ w', s'.waitIn (some w'.coro) = some w' →
      some w.coro ≠ some w'.coro ∧ s.waitIn (some w'.coro) = some w' := by
    intro w' hw'
    rw [hwaits] at hw'
    exact waitIn_update_ne hw' (by nofun)
  refine ⟨htriggers, fun w' hw' => h.once w' (hold w' hw').2, fun c hc => ?_, fun w' hw' e he => ?_⟩
  · rw [hr] at hc
    dsimp only at hc
    rw [hwaits, Function.update_apply]
    rw [Function.update_apply] at hc
    split at hc
    · exact absurd rfl hc
    next hne =>
      rw [if_neg fun heq => hne (Option.some.inj heq)]
      exact h.waits c hc
  · obtain ⟨_, hw⟩ := hold w' hw'
    refine h.keepsArmed hcourse hw (fun e he => .inl ?_) he
    rw [hr] at he
    exact (update_none_eq_some.mp he).2

theorem step (h : OneShot tr s) (hcourse : Course s a evs s') (hcancel : NoCancel s a)
    (hpersist : NoPersist s a) : OneShot (tr ++ evs) s' := by
  have htriggers : Triggers s' := by
    refine h.toTriggers.step hcourse.self hcancel ?_ hcourse.reacts
    exact fun u c spec b r _ _ hrun hfree => .inr (h.untriggered hrun hfree)
  have hreacts := hcourse.reacts
  cases hreacts with
  | still hwaits hr =>
      refine ⟨htriggers, fun w hw => h.once w (hwaits ▸ hw), fun c hc => ?_, fun w hw e he => ?_⟩
      · rw [hwaits]
        exact h.waits c (hr ▸ hc)
      · exact h.keepsArmed hcourse (hwaits ▸ hw) (fun e he => .inl (hr ▸ he)) he
  | begins hstarts _ hfree hwaits => exact h.begins hcourse hpersist htriggers hstarts hfree hwaits
  | ends _ hwait hwaits hr => exact h.ends hcourse htriggers hwait hwaits hr
  | @fires b watcher revents e _ he _ hwaits hr =>
      refine ⟨htriggers, fun w hw => h.once w (hwaits ▸ hw), fun c hc => ?_, fun w hw e' he' => ?_⟩
      · rw [hwaits]
        rw [hr] at hc
        exact h.waits c hc
      · rw [hwaits] at hw
        refine h.keepsArmed hcourse hw (fun e' he' => ?_) he'
        rw [hr] at he'
        dsimp only at he'
        rw [Function.update_apply] at he'
        split at he'
        next hb =>
          obtain ⟨_, e₀, he₀, harg⟩ := h.table.entry_block (h.pending_some hw)
          rw [hb, he] at he₀
          obtain rfl := Option.some.inj he₀
          exact .inr ⟨_, List.mem_cons_self, hb.symm, harg⟩
        next => exact .inl he'
  | cancels => exact absurd hcancel id

/-- A callback for the coroutine of a wait in progress is that of its event. -/
theorem rouses (h : OneShot tr s) (hcourse : Course s a evs s') (hcancel : NoCancel s a)
    (hw : s.waitIn (some w.coro) = some w) {o : Obs} (ho : o ∈ evs) (hrouses : Rouses w.coro o) :
    w.Fired o := by
  rcases hcourse.reacts.rouses ho hrouses with
    ⟨b, _, revents, e, he, _, harg, rfl⟩ | ⟨⟨_, rfl⟩, _⟩
  · have hb := h.table.trigger he
    rw [harg, h.pending_some hw] at hb
    exact ⟨(Option.some.inj (Option.some.inj hb)).symm, rfl⟩
  · exact absurd hcancel id

end OneShot

/-- In every tree-driven run with one-shot waits, a coroutine has a trigger exactly while
it is in a wait: the block of that wait, with an event for it that is set up or was
called back. The blocks handed out are the triggers, and a wait ends only after the
callback of its own event since it began. -/
theorem triggers_are_waits (h : RunOf OneShotDriven tr s) :
    (∀ c, s.reactor.triggers c ≠ none ↔ s.waitIn (some c) ≠ none) ∧
    (∀ c w, s.waitIn (some c) = some w → w.coro = c ∧
      s.reactor.triggers c = some (some w.event) ∧
      w.event ∈ s.reactor.eventAllocator.held ∧
      ∃ e, s.reactor.event w.event = some e ∧ e.evArg = c ∧
        (e.active = true ∨ ∃ o ∈ sinceWait c tr, w.Fired o)) ∧
    (∀ c d ptr, s.reactor.triggers c = some ptr → s.reactor.triggers d = some ptr → c = d) ∧
    (s.reactor.eventAllocator.freeList ++ s.reactor.eventAllocator.held).Nodup ∧
    (∀ b, b ∈ s.reactor.eventAllocator.held ↔ ∃ c, s.reactor.triggers c = some (some b)) ∧
    ∀ a s' evs c spec b, s.step a = some (.ok (s', evs)) → .waitEnded c spec b ∈ evs →
      ∃ o ∈ sinceWait c tr, Wait.Fired ⟨c, spec, b⟩ o := by
  obtain ⟨hinv, ⟨chain, hchain⟩, hown, hshot, hreasons⟩ := Course.run
    (P := fun tr s => OneShot tr s ∧ Reasons Wait.Fired tr s)
    (fun _ _ hok => ⟨hok.1, hok.2.2.1, hok.2.2.2.1⟩)
    (fun _ _ _ _ _ hcourse hok hall =>
      ⟨hall.1.step hcourse hok.2.2.2.2.1 hok.2.2.2.2.2,
        hcourse.reasons hall.2 fun _ hw _ _ ho hrouses =>
          hall.1.rouses hcourse hok.2.2.2.2.1 hw ho hrouses⟩)
    (h.offChain fun _ _ hok => hok.1) ⟨oneShot_init, reasons_init⟩
  have htable := hshot.table
  refine ⟨fun c => ⟨hshot.waits c, fun hwait htrigger => ?_⟩, fun c w hw => ?_,
    fun c d ptr => htable.injective, htable.allocator.nodup,
    fun b => ⟨htable.held b, fun ⟨c, hc⟩ => (htable.entry_block hc).1⟩,
    fun a s' evs c spec b hstep hended =>
      hreasons.ended hinv hchain hown (hinv.reacts (hinv.effect hstep)) hended⟩
  · obtain ⟨w, hw⟩ := Option.ne_none_iff_exists'.mp hwait
    obtain rfl := Option.some.inj (hown _ w hw)
    rw [hshot.pending_some hw] at htrigger
    cases htrigger
  · obtain rfl := Option.some.inj (hown _ w hw)
    have htrigger := hshot.pending_some hw
    obtain ⟨hheld, e, he, harg⟩ := htable.entry_block htrigger
    exact ⟨rfl, htrigger, hheld, e, he, harg, hshot.armed w hw e he⟩

/-- Coroutine 0 waits for a timer, which expires, and its wait ends. -/
theorem triggers_are_waits_timer : ∃ tr s s' evs, RunOf OneShotDriven tr s ∧
    s.waitIn (some 0) = some ⟨0, .timeout 1000, 0⟩ ∧ s.reactor.triggers 0 ≠ none ∧
      s.step .lib = some (.ok (s', evs)) ∧ .waitEnded 0 (.timeout 1000) 0 ∈ evs ∧
        ∃ o ∈ sinceWait 0 tr, Wait.Fired ⟨0, .timeout 1000, 0⟩ o := by
  have hrun : RunOf OneShotDriven _
      (Transition.after State.step OneShotDriven State.init sleepsOnce).1 :=
    Transition.run_after (by decide +kernel)
  have hwait : (Transition.after State.step OneShotDriven State.init sleepsOnce).1.waitIn
      (some 0) = some ⟨0, .timeout 1000, 0⟩ := by decide +kernel
  have hstep := (@Transition.step_after _ _ _ _ State.step OneShotDriven _
    (Transition.after State.step OneShotDriven State.init sleepsOnce).1 .lib
    (by decide +kernel)).2
  have hended : .waitEnded 0 (.timeout 1000) 0 ∈ (Transition.after State.step OneShotDriven
      (Transition.after State.step OneShotDriven State.init sleepsOnce).1 [.lib]).2 := by
    decide +kernel
  obtain ⟨hiff, _, _, _, _, hends⟩ := triggers_are_waits hrun
  exact ⟨_, _, _, _, hrun, hwait, (hiff 0).mpr (by rw [hwait]; nofun), hstep, hended,
    hends _ _ _ _ _ _ hstep hended⟩

end BoostCoro.Coroutine
