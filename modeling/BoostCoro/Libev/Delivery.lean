import BoostCoro.Libev.LoopRuns
import BoostCoro.Libev.InvokePending
import Mathlib.Algebra.Ring.Int.Defs
/-!
# What the loop tells its watchers

In every state that the API reaches: what `ev_verify` asserts, what the backend is
told to wait for, and which watchers are fed what by a descriptor that is ready or
unusable, by caught signals and by timers that are due. The timers that are due at
the same time are called back in the order of their times.
-/

namespace BoostCoro.Libev.Loop

variable {ι τ : Type} [DecidableEq ι] [LinearOrder τ] [Add τ] [Sub τ] [Zero τ]
variable {abspri : Watcher ι → Fin numpri} {mnNow : τ} {heap : Nat → Anhe ι τ}
variable {tr : List (Watcher ι × Revents)} {l l' : Loop ι τ} {w v : ι} {fd n : Nat}
variable {revents : Revents}

theorem run_sound (h : Transition.Run step (fun _ _ => True) (init abspri mnNow heap) tr l) :
    l.Sound :=
  h.invariant (fun _ _ _ _ hs _ hstep => hs.step hstep) (init_sound abspri mnNow heap)

/-- Two I/O watchers on one descriptor, a signal watcher and two timers that are due. -/
def setUp : List (LoopAct Nat Int) :=
  [.evIoSet 0 7 3, .evIoStart 0, .evIoSet 1 7 1, .evIoStart 1, .evSignalSet 0 2,
    .evSignalStart 0, .evTimerSet 0 5 0, .evTimerStart 0, .evTimerSet 1 3 4, .evTimerStart 1,
    .timeUpdate 6]

def afterSetUp : Loop Nat Int × List (Watcher Nat × Revents) :=
  Transition.after step (fun _ _ => True)
    (init (fun _ => defaultPri) 0 fun _ => ⟨0, 0⟩) setUp

theorem afterSetUp_run :
    Transition.Run step (fun _ _ => True) (init (fun _ => defaultPri) 0 fun _ => ⟨0, 0⟩)
      afterSetUp.2 afterSetUp.1 :=
  Transition.run_after (by decide +kernel)

/-! ## `ev_verify` -/

/-- `verify_watcher`; that the priority is valid is in its type. -/
def VerifyWatcher (l : Loop ι τ) (w : Watcher ι) : Prop :=
  l.queue.pending w ≠ 0 →
    l.queue.slotOf (l.queue.abspri w) (l.queue.pending w - 1) = some (some w)

/-- What `ev_verify` asserts of the loop. -/
structure EvVerify (l : Loop ι τ) : Prop where
  activecnt : -1 ≤ l.activecnt
  anfds : ∀ fd w, w ∈ (l.fds.anfds fd).head →
    l.VerifyWatcher (.io w) ∧ l.fds.active w = 1 ∧ l.fds.fd w = fd
  heap : l.timers.VerifyHeap
  timers : ∀ k, Heap.Used l.timers.timercnt k →
    l.VerifyWatcher (.timer (l.timers.timers.heap k).anheW)

omit [Add τ] [Sub τ] [Zero τ] [DecidableEq ι] in
theorem Sound.verifyWatcher (h : l.Sound) (w : Watcher ι) : l.VerifyWatcher w := fun hw =>
  (h.queue _ _ _).mpr ⟨rfl, by omega⟩

omit [Add τ] [Sub τ] [Zero τ] [DecidableEq ι] in
theorem Sound.evVerify (h : l.Sound) : l.EvVerify where
  activecnt := by
    obtain ⟨s, -, hcard⟩ := h.counted
    omega
  anfds fd w hw := by
    obtain ⟨hactive, hfd⟩ := (h.listed.head w fd).mp hw
    exact ⟨h.verifyWatcher _, h.listed.one w hactive, hfd⟩
  heap := h.timers.verifyHeap
  timers k _ := h.verifyWatcher _

omit [Add τ] [Sub τ] [Zero τ] in
/-- A ready descriptor: its watchers are fed those of the events that they are for. -/
theorem Sound.told_fdEventNocheck (h : l.Sound) (fd : Nat) (revents : Revents)
    (x : Watcher ι) : (l.fdEventNocheck fd revents).queue.told x =
      match x with
      | .io w =>
        if l.fds.active w ≠ 0 ∧ l.fds.fd w = fd ∧ l.fds.events w &&& revents ≠ 0 then
          some ((l.queue.told (.io w)).getD 0 ||| (l.fds.events w &&& revents))
        else l.queue.told (.io w)
      | x => l.queue.told x := by
  have hnodup : (((l.fds.anfds fd).head.map fun w =>
      (Watcher.io w, l.fds.events w &&& revents)).map Prod.fst).Nodup := by
    rw [List.map_map]
    exact (h.listed.nodup fd).map fun _ _ => Watcher.io.inj
  obtain ⟨-, -, htold, hsame⟩ := h.queue.feedSome hnodup
  rw [fdEventNocheck_eq]
  cases x with
  | io w =>
      simp only
      split
      next hw =>
        refine htold _ _ (List.mem_map.mpr ⟨w, ?_, rfl⟩) hw.2.2
        exact (h.listed.head w fd).mpr ⟨hw.1, hw.2.1⟩
      next hw =>
        refine hsame _ fun r hr => ?_
        obtain ⟨v, hv, heq⟩ := List.mem_map.mp hr
        obtain ⟨hvw, rfl⟩ := Prod.mk.inj heq
        obtain rfl := Watcher.io.inj hvw
        obtain ⟨hactive, hfd⟩ := (h.listed.head v fd).mp hv
        by_contra hne
        exact hw ⟨hactive, hfd, hne⟩
  | sig w =>
      refine hsame _ fun r hr => ?_
      obtain ⟨v, -, heq⟩ := List.mem_map.mp hr
      cases heq
  | timer w =>
      refine hsame _ fun r hr => ?_
      obtain ⟨v, -, heq⟩ := List.mem_map.mp hr
      cases heq

omit [Sub τ] in
/-- A step other than `pipecb` keeps what was caught. -/
theorem Moves.keeps_pending {i : LoopAct ι τ} {evs : List (Watcher ι × Revents)}
    (hm : Moves l i l' evs) (hi : i ≠ .pipecb) (hany : l.signals.sigPending = true)
    (hn : l.signals.pending n = true) :
    l'.signals.sigPending = true ∧ l'.signals.pending n = true := by
  cases hm with
  | timerStarts hw hre => exact hre.signals ▸ ⟨hany, hn⟩
  | timerStops hre => exact hre.signals ▸ ⟨hany, hn⟩
  | timerAgain hg hre => exact hre.signals ▸ ⟨hany, hn⟩
  | fdKill hkilled => exact hkilled.signals ▸ ⟨hany, hn⟩
  | timersReify hre => exact hre.signals.symm ▸ ⟨hany, hn⟩
  | feedFdEvent => exact fdEventNocheck_eq l .. ▸ ⟨hany, hn⟩
  | fdEvent => exact fdEventNocheck_eq l .. ▸ ⟨hany, hn⟩
  | @feedSignal m =>
      simp only [Signals.evFeedSignal]
      split
      next => exact ⟨hany, hn⟩
      next =>
        refine ⟨rfl, ?_⟩
        by_cases hm : n = m <;> simp [hm, hn]
  | pipecb => exact absurd rfl hi
  | _ => exact ⟨hany, hn⟩

omit [Add τ] [Sub τ] [Zero τ] in
/-- `pipecb` tells every watcher of a signal that was caught, and no other watcher. -/
theorem Sound.told_pipecb (h : l.Sound) (x : Watcher ι) : l.pipecb.queue.told x =
    match x with
    | .sig w =>
      if l.signals.sigPending = true ∧ l.signals.active w ≠ 0 ∧
          l.signals.pending (l.signals.signum w - 1).toNat = true then
        some ((l.queue.told (.sig w)).getD 0 ||| evSignal)
      else l.queue.told (.sig w)
    | x => l.queue.told x := by
  by_cases hany : l.signals.sigPending = true
  · have hfed := pipecb_fed h.queue h.signals hany
    have hout : ∀ x, (∀ w, x ≠ .sig w) → l.pipecb.queue.told x = l.queue.told x := fun x hx =>
      hfed.others x fun n w _ _ _ => hx w
    cases x with
    | io w => exact hout _ fun v => by simp
    | timer w => exact hout _ fun v => by simp
    | sig w =>
        simp only [hany, true_and]
        split
        next hw =>
          obtain ⟨hactive, hcaught⟩ := hw
          have hrange := h.signals.range w hactive
          refine hfed.told _ w ?_ hcaught ((h.signals.head w _).mpr ⟨hactive, by omega⟩)
          rw [List.mem_reverse, List.mem_range]
          omega
        next hw =>
          refine hfed.others _ fun n v _ hcaught hv heq => hw ?_
          obtain rfl := Watcher.sig.inj heq
          obtain ⟨hactive, hnum⟩ := (h.signals.head w n).mp hv
          refine ⟨hactive, ?_⟩
          rw [hnum, Int.add_sub_cancel, Int.toNat_natCast]
          exact hcaught
  · have hidle : l.pipecb = l := if_neg hany
    rw [hidle]
    cases x <;> simp [hany]

/-- A signal that was caught while it had watchers is not lost: whatever happens before the
next `pipecb`, that call tells every watcher that then waits for the signal. -/
theorem run_signal {tr' : List (Watcher ι × Revents)}
    (h : Transition.Run step (fun _ _ => True) (init abspri mnNow heap) tr l)
    (hn : l.signals.head n ≠ [])
    (h' : Transition.Run step (fun _ i => i ≠ .pipecb)
      { l with signals := l.signals.evFeedSignal n } tr' l')
    (hw : l'.signals.active w ≠ 0 ∧ l'.signals.signum w = n + 1) :
    l'.pipecb.queue.told (.sig w) = some ((l'.queue.told (.sig w)).getD 0 ||| evSignal) := by
  have hkept := h'.invariant (I := fun l => l.Sound ∧ l.signals.sigPending = true ∧
    l.signals.pending n = true) ?_ ?_
  · obtain ⟨hs, hany, hcaught⟩ := hkept
    refine (hs.told_pipecb (.sig w)).trans (if_pos ⟨hany, hw.1, ?_⟩)
    rw [hw.2, Int.add_sub_cancel, Int.toNat_natCast]
    exact hcaught
  · rintro l i l' evs ⟨hs, hany, hcaught⟩ hi hstep
    exact ⟨hs.step hstep, (hs.moves hstep).keeps_pending hi hany hcaught⟩
  · refine ⟨(run_sound h).evFeedSignal n, ?_⟩
    simp [Signals.evFeedSignal, hn]

/-- The clock is read and the backend is brought up to date after the signal 2. -/
def afterSignal : Loop Nat Int × List (Watcher Nat × Revents) :=
  Transition.after step (fun _ i => i ≠ .pipecb)
    { afterSetUp.1 with signals := afterSetUp.1.signals.evFeedSignal 1 } [.timeUpdate 9, .fdReify]

theorem run_signal_setUp : afterSignal.1.pipecb.queue.told (.sig 0) = some evSignal :=
  (run_signal (n := 1) afterSetUp_run (by decide +kernel)
    (Transition.run_after (by decide +kernel)) ⟨by decide +kernel, by decide +kernel⟩).trans
    (by decide +kernel)

/-! ## Timers -/

omit [Sub τ] in
theorem Moves.reified {evs : List (Watcher ι × Revents)} (hm : Moves l .timersReify l' evs) :
    ∃ l₁ rfeeds, l' = { l₁ with queue := l₁.queue.feedAll (rfeeds.map .timer) evTimer } ∧
      Reified l l₁ rfeeds := by
  cases hm with
  | timersReify hre => exact ⟨_, _, rfl, hre⟩

omit [Sub τ] in
/-- What `timers_reify` does to the timers that are due and to the others. -/
theorem Sound.timersReified {evs : List (Watcher ι × Revents)} (hs : l.Sound)
    (hm : Moves l .timersReify l' evs) :
    (∀ w, ¬l'.timers.Due w) ∧
    (∀ w, l.timers.Due w → l'.timers.armed w = rearmed l.timers w ∧
      l'.queue.told (.timer w) =
        if l.timers.evRepeat w = 0 then some evTimer
        else some ((l.queue.told (.timer w)).getD 0 ||| evTimer)) ∧
    (∀ w, ¬l.timers.Due w → l'.timers.armed w = l.timers.armed w ∧
      l'.queue.told (.timer w) = l.queue.told (.timer w)) ∧
    ∀ w, l'.queue.told (.io w) = l.queue.told (.io w) ∧
      l'.queue.told (.sig w) = l.queue.told (.sig w) := by
  obtain ⟨l₁, rfeeds, rfl, hre⟩ := hm.reified
  obtain ⟨hclear, -, hcleared⟩ := hs.queue.clearAll
    ((rfeeds.filter fun w => l.timers.evRepeat w = 0).map .timer)
  rw [← hre.queue] at hclear hcleared
  obtain ⟨-, -, htold⟩ := hclear.feedAll evTimer (rfeeds.map .timer)
  have hmem : ∀ {ws : List ι} {w : ι}, Watcher.timer w ∈ ws.map Watcher.timer ↔ w ∈ ws :=
    List.mem_map_of_injective fun _ _ => Watcher.timer.inj
  refine ⟨fun w => ?_, fun w hw => ⟨?_, ?_⟩, fun w hw => ⟨?_, ?_⟩, fun w => ⟨?_, ?_⟩⟩
  · rintro ⟨a, ha, hlt⟩
    have harmed : l₁.timers.armed w = some a := ha
    have hnow : a < l.timers.mnNow := hre.mnNow ▸ hlt
    rw [hre.armed] at harmed
    split at harmed
    next => exact not_due_rearmed harmed hnow
    next hout => exact hout ((hre.due w).mpr ⟨a, harmed, hnow⟩)
  · exact (hre.armed w).trans (if_pos ((hre.due w).mpr hw))
  · have hin := (hre.due w).mpr hw
    refine (htold _).trans ((if_pos (hmem.mpr hin)).trans ?_)
    rw [hcleared]
    by_cases hzero : l.timers.evRepeat w = 0
    · simp [hin, hzero]
    · simp [hzero]
  · exact (hre.armed w).trans (if_neg fun hin => hw ((hre.due w).mp hin))
  · have hout : w ∉ rfeeds := fun hin => hw ((hre.due w).mp hin)
    refine (htold _).trans ((if_neg fun hin => hout (hmem.mp hin)).trans ?_)
    rw [hcleared, if_neg fun hin => hout (List.mem_of_mem_filter (hmem.mp hin))]
  · refine (htold _).trans ((if_neg (by simp)).trans ?_)
    rw [hcleared, if_neg (by simp)]
  · refine (htold _).trans ((if_neg (by simp)).trans ?_)
    rw [hcleared, if_neg (by simp)]

/-- The state after the two timers were due. -/
def afterReify : Loop Nat Int × List (Watcher Nat × Revents) :=
  Transition.after step (fun _ _ => True) afterSetUp.1 [.timersReify]

theorem afterReify_step :
    step afterSetUp.1 .timersReify = some (.ok (afterReify.1, afterReify.2)) :=
  (Transition.step_after (by decide +kernel)).2

omit [Sub τ] in
/-- Of two timers that are due the one with the earlier time comes first in the queue, unless
it already had a slot. -/
theorem Reified.before {a b : τ} {rfeeds : List ι} (hs : l.queue.Sound)
    (hre : Reified l l' rfeeds) (ha : l.timers.armed w = some a) (hb : l.timers.armed v = some b)
    (hab : a < b) (hdue : b < l.timers.mnNow)
    (hpri : l.queue.abspri (.timer w) = l.queue.abspri (.timer v))
    (hfresh : l.queue.told (.timer w) = none ∨ l.timers.evRepeat w = 0) :
    Invoker.Before (l'.queue.feedAll (rfeeds.map .timer) evTimer) (.timer w) (.timer v) := by
  obtain ⟨hclear, habspri, hcleared⟩ := hs.clearAll
    ((rfeeds.filter fun w => l.timers.evRepeat w = 0).map .timer)
  rw [← hre.queue] at hclear habspri hcleared
  obtain ⟨hfed, habspri', htold⟩ := hclear.feedAll evTimer (rfeeds.map .timer)
  have hw : w ∈ rfeeds := (hre.due w).mpr ⟨a, ha, hab.trans hdue⟩
  have hv : v ∈ rfeeds := (hre.due v).mpr ⟨b, hb, hdue⟩
  have hpending : ∀ x ∈ rfeeds,
      (l'.queue.feedAll (rfeeds.map .timer) evTimer).pending (.timer x) ≠ 0 := by
    intro x hx hzero
    have hnone := (Pendings.told_eq_none hfed).mpr hzero
    rw [htold, if_pos (List.mem_map_of_mem hx)] at hnone
    cases hnone
  have hzero : l'.queue.pending (.timer w) = 0 := by
    refine (Pendings.told_eq_none hclear).mp ?_
    rw [hcleared]
    rcases hfresh with hnone | hrep
    · simp [hnone]
    · simp [hw, hrep]
  refine ⟨⟨hpending w hw, hpending v hv⟩, .inr ⟨?_, ?_⟩⟩
  · rw [habspri', habspri, hpri]
  · have hlater := hclear.feedAll_later evTimer (hre.nodup.map fun _ _ => Watcher.timer.inj)
    rw [List.pairwise_map] at hlater
    -- `w` stands before `v` in the list
    obtain ⟨i, hi, hwi⟩ := List.getElem_of_mem hw
    obtain ⟨j, hj, hvj⟩ := List.getElem_of_mem hv
    have hij : i < j := by
      by_contra hle
      rcases Nat.eq_or_lt_of_le (not_lt.mp hle) with heq | hlt
      · subst heq
        obtain rfl := hwi.symm.trans hvj
        exact hab.ne (Option.some.inj (ha.symm.trans hb))
      · have hba := List.pairwise_iff_getElem.mp hre.sorted j i hj hi hlt b a
        rw [hwi, hvj] at hba
        exact absurd (hba hb ha) (not_le.mpr hab)
    have hslots := List.pairwise_iff_getElem.mp hlater i j hi hj hij
    rw [hwi, hvj] at hslots
    exact hslots hzero (by rw [habspri, hpri])

/-- Two timers of one priority are due at the same `timers_reify`. In the `ev_invoke_pending`
that follows, whatever the callbacks do, the one with the later time is not called back before
the other one was, or before one of the two was cleared. -/
theorem run_deadlines {a b : τ} {evs : List (Watcher ι × Revents)}
    {frames : List (Fin (numpri + 1))} {s' : Invoker (Watcher ι)}
    {tr' tr₁ tr₂ : List (QueueObs (Watcher ι))}
    (h : Transition.Run step (fun _ _ => True) (init abspri mnNow heap) tr l)
    (hstep : step l .timersReify = some (.ok (l', evs)))
    (ha : l.timers.armed w = some a) (hb : l.timers.armed v = some b) (hab : a < b)
    (hdue : b < l.timers.mnNow)
    (hpri : l.queue.abspri (.timer w) = l.queue.abspri (.timer v))
    (hfresh : l.queue.told (.timer w) = none ∨ l.timers.evRepeat w = 0)
    (h' : Transition.Run Invoker.step (fun t _ => frames.length < t.frames.length)
      ⟨l'.queue, Fin.last numpri :: frames⟩ tr' s')
    (hsplit : tr' = tr₁ ++ .invoked (.timer v) revents :: tr₂) :
    ∃ o ∈ tr₁, Invoker.touches (.timer w) o ∨ Invoker.touches (.timer v) o := by
  have hs := run_sound h
  obtain ⟨l₁, rfeeds, rfl, hre⟩ := (hs.moves hstep).reified
  have hbefore := hre.before hs.queue ha hb hab hdue hpri hfresh
  have hsound := (hs.reified hre).queue
  exact Invoker.inOrder_of_sound (s := ⟨_, frames⟩) hsound h' hbefore hsplit

/-- The turns of `ev_invoke_pending` after the two timers were due; the first callback feeds a
watcher. -/
def dueTurns : List (QueueAct (Watcher Nat)) :=
  [.next, .next, .next, .feed (.io 0) 1, .next, .next]

def afterTurns : Invoker (Watcher Nat) × List (QueueObs (Watcher Nat)) :=
  Transition.after Invoker.step
    (fun t _ => ([] : List (Fin (numpri + 1))).length < t.frames.length)
    ⟨afterReify.1.queue, [Fin.last numpri]⟩ dueTurns

theorem run_deadlines_dueTurns :
    ∃ o ∈ [QueueObs.invoked (Watcher.timer (1 : Nat)) evTimer, .fed (.io 0) 1,
        .invoked (.io 0) 1],
      Invoker.touches (.timer 1) o ∨ Invoker.touches (.timer 0) o := by
  have hrun : Transition.Run Invoker.step
      (fun t _ => ([] : List (Fin (numpri + 1))).length < t.frames.length)
      ⟨afterReify.1.queue, [Fin.last numpri]⟩ afterTurns.2 afterTurns.1 :=
    Transition.run_after (by decide +kernel)
  have htrace : afterTurns.2 = [.invoked (.timer 1) evTimer, .fed (.io 0) 1,
      .invoked (.io 0) 1] ++ .invoked (.timer 0) evTimer :: [] := by decide +kernel
  exact run_deadlines (a := 3) (b := 5) afterSetUp_run afterReify_step (by decide +kernel)
    (by decide +kernel) (by decide) (by decide +kernel) (by decide +kernel)
    (.inl (by decide +kernel)) hrun htrace

end BoostCoro.Libev.Loop
