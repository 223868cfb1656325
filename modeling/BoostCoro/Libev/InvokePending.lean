import BoostCoro.Libev.Pending
/-!
# Invoking what is pending

The loops of `ev_invoke_pending` as a machine whose steps the callbacks interrupt:
between two turns they may feed and clear watchers and call `ev_invoke_pending`
again. Every callback is told the union of what its watcher was fed since its
last one, and a call does not return before everything that was pending when it
was entered has been called back or cleared.
-/

namespace BoostCoro.Libev

/-- What happens to the queue: the calls of the API, and one more turn of the innermost
`ev_invoke_pending`. -/
inductive QueueAct (ω : Type) where
  | feed (w : ω) (revents : Revents)
  | clear (w : ω)
  | evClear (w : ω)
  | enter
  | next

inductive QueueObs (ω : Type) where
  | fed (w : ω) (revents : Revents)
  | cleared (w : ω)
  | returned (w : ω) (revents : Revents)
  | entered
  | invoked (w : ω) (revents : Revents)
  | left
  deriving DecidableEq, Repr

/-- The queue with the `pri` of each running `ev_invoke_pending`, the innermost first:
the loops have this many priorities before them. -/
structure Invoker (ω : Type) where
  queue : Pendings ω
  frames : List (Fin (numpri + 1))

namespace Invoker

open QueueObs

variable {ω : Type} [DecidableEq ω]

def init (abspri : ω → Fin numpri) : Invoker ω := ⟨.new abspri, []⟩

/-- One turn of the innermost call: the last slot of the current priority is invoked, or
the outer loop goes on to the next priority. -/
def next (s : Invoker ω) : Option (Invoker ω × List (QueueObs ω)) :=
  match s.frames with
  | [] => none
  | c :: frames =>
    if h : c = 0 then some ({ s with frames }, [left])
    else
      match s.queue.takeLast (c.pred h) with
      | none => some ({ s with frames := (c.pred h).castSucc :: frames }, [])
      | some (⟨some w, revents⟩, queue) => some ({ s with queue }, [invoked w revents])
      | some (⟨none, _⟩, queue) => some ({ s with queue }, [])

def step : Transition.StepFn (Invoker ω) (QueueAct ω) Empty (QueueObs ω) := fun s i =>
  match i with
  | .feed w revents =>
    some (.ok ({ s with queue := s.queue.evFeedEvent w revents }, [fed w revents]))
  | .clear w => some (.ok ({ s with queue := s.queue.clearPending w }, [cleared w]))
  | .evClear w =>
    some (.ok ({ s with queue := (s.queue.evClearPending w).2 },
      [returned w (s.queue.evClearPending w).1]))
  | .enter => some (.ok ({ s with frames := Fin.last numpri :: s.frames }, [entered]))
  | .next => s.next.map .ok

/-! ## What a step does -/

/-- What a step does to the events that the watchers wait for. -/
inductive Turns (s : Invoker ω) : Invoker ω → List (QueueObs ω) → Prop
  | feeds {w revents} : Turns s ⟨s.queue.evFeedEvent w revents, s.frames⟩ [fed w revents]
  | clears {w} : Turns s ⟨s.queue.clearPending w, s.frames⟩ [cleared w]
  | returns {w} :
      Turns s ⟨s.queue.clearPending w, s.frames⟩ [returned w (s.queue.evClearPending w).1]
  | enters : Turns s ⟨s.queue, Fin.last numpri :: s.frames⟩ [entered]
  | leaves {frames} (hframes : s.frames = 0 :: frames) : Turns s ⟨s.queue, frames⟩ [left]
  | advances {c : Fin numpri} {frames} (hframes : s.frames = c.succ :: frames)
      (hnil : s.queue.pendings c = []) : Turns s ⟨s.queue, c.castSucc :: frames⟩ []
  | drops {c : Fin numpri} {frames revents queue} (hframes : s.frames = c.succ :: frames)
      (htake : s.queue.takeLast c = some (⟨none, revents⟩, queue)) :
      Turns s ⟨queue, s.frames⟩ []
  | invokes {c : Fin numpri} {frames w revents queue} (hframes : s.frames = c.succ :: frames)
      (htake : s.queue.takeLast c = some (⟨some w, revents⟩, queue)) :
      Turns s ⟨queue, s.frames⟩ [invoked w revents]

theorem next_turns {s s' : Invoker ω} {evs : List (QueueObs ω)} (h : s.next = some (s', evs)) :
    Turns s s' evs := by
  unfold next at h
  split at h
  next => cases h
  next c frames hframes =>
    split at h
    next hc =>
      obtain ⟨rfl, rfl⟩ := Prod.mk.inj (Option.some.inj h)
      exact .leaves (hc ▸ hframes)
    next hc =>
      have hsucc : s.frames = (c.pred hc).succ :: frames := by rw [Fin.succ_pred, hframes]
      split at h
      next htake =>
        obtain ⟨rfl, rfl⟩ := Prod.mk.inj (Option.some.inj h)
        exact .advances hsucc (Pendings.takeLast_eq_none.mp htake)
      next w revents queue htake =>
        obtain ⟨rfl, rfl⟩ := Prod.mk.inj (Option.some.inj h)
        exact .invokes hsucc htake
      next events queue htake =>
        obtain ⟨rfl, rfl⟩ := Prod.mk.inj (Option.some.inj h)
        exact .drops hsucc htake

theorem step_turns {s s' : Invoker ω} {i : QueueAct ω} {evs : List (QueueObs ω)}
    (h : step s i = some (.ok (s', evs))) : Turns s s' evs := by
  cases i with
  | feed w revents =>
      obtain ⟨rfl, rfl⟩ := Prod.mk.inj (Except.ok.inj (Option.some.inj h))
      exact .feeds
  | clear w =>
      obtain ⟨rfl, rfl⟩ := Prod.mk.inj (Except.ok.inj (Option.some.inj h))
      exact .clears
  | evClear w =>
      obtain ⟨rfl, rfl⟩ := Prod.mk.inj (Except.ok.inj (Option.some.inj h))
      rw [Pendings.evClearPending_snd]
      exact .returns
  | enter =>
      obtain ⟨rfl, rfl⟩ := Prod.mk.inj (Except.ok.inj (Option.some.inj h))
      exact .enters
  | next =>
      obtain ⟨q, hnext, hq⟩ := Option.map_eq_some_iff.mp h
      rw [Except.ok.inj hq] at hnext
      exact next_turns hnext

/-! ## The events that are owed -/

/-- What an event of the queue makes of the events that the watchers are owed. -/
def owe (g : ω → Option Revents) : QueueObs ω → ω → Option Revents
  | fed w revents => Function.update g w (some ((g w).getD 0 ||| revents))
  | cleared w => Function.update g w none
  | returned w _ => Function.update g w none
  | invoked w _ => Function.update g w none
  | entered => g
  | left => g

/-- The events that each watcher was fed since it was last called back or cleared. -/
def owed (tr : List (QueueObs ω)) : ω → Option Revents := tr.foldl owe fun _ => none

@[simp] theorem owed_nil : owed ([] : List (QueueObs ω)) = fun _ => none := rfl

@[simp] theorem owed_append (tr evs : List (QueueObs ω)) :
    owed (tr ++ evs) = evs.foldl owe (owed tr) := List.foldl_append ..

/-- What an event says of the events that its watcher was owed just before. -/
def Tells (g : ω → Option Revents) : QueueObs ω → Prop
  | invoked w revents => g w = some revents
  | returned w revents => (g w).getD 0 = revents
  | _ => True

/-- Every event of a trace says what the events before it made. -/
def Faithful (tr : List (QueueObs ω)) : Prop :=
  ∀ tr₁ o tr₂, tr = tr₁ ++ o :: tr₂ → Tells (owed tr₁) o

theorem Turns.told {s s' : Invoker ω} {evs : List (QueueObs ω)} (h : Turns s s' evs)
    (hs : s.queue.Sound) :
    s'.queue.Sound ∧ s'.queue.abspri = s.queue.abspri ∧
      s'.queue.told = evs.foldl owe s.queue.told ∧ ∀ o ∈ evs, Tells s.queue.told o := by
  cases h with
  | feeds =>
      refine ⟨hs.evFeedEvent, by simp, hs.told_evFeedEvent, fun o ho => ?_⟩
      rw [List.mem_singleton.mp ho]
      trivial
  | clears =>
      refine ⟨hs.clearPending, by simp, hs.told_clearPending, fun o ho => ?_⟩
      rw [List.mem_singleton.mp ho]
      trivial
  | returns =>
      refine ⟨hs.clearPending, by simp, hs.told_clearPending, fun o ho => ?_⟩
      rw [List.mem_singleton.mp ho]
      exact hs.evClearPending_fst.symm
  | enters => exact ⟨hs, rfl, rfl, by simp [Tells]⟩
  | leaves => exact ⟨hs, rfl, rfl, by simp [Tells]⟩
  | advances => exact ⟨hs, rfl, rfl, by simp⟩
  | drops _ htake =>
      obtain ⟨hsound, hpri, htold⟩ := hs.takeLast_dummy htake
      exact ⟨hsound, hpri, htold, by simp⟩
  | invokes _ htake =>
      obtain ⟨hsound, hpri, -, hwas, htold⟩ := hs.takeLast_watcher htake
      refine ⟨hsound, hpri, htold, fun o ho => ?_⟩
      rw [List.mem_singleton.mp ho]
      exact hwas

/-- A step emits at most one event. -/
theorem Turns.atMostOne {s s' : Invoker ω} {evs : List (QueueObs ω)} (h : Turns s s' evs) :
    evs = [] ∨ ∃ o, evs = [o] := by
  cases h <;> simp

omit [DecidableEq ω] in
/-- An event of a trace and one more step is in the trace or is the event of the step. -/
theorem split_snoc {tr evs tr₁ tr₂ : List (QueueObs ω)} {x : QueueObs ω}
    (hone : evs = [] ∨ ∃ o, evs = [o]) (h : tr ++ evs = tr₁ ++ x :: tr₂) :
    (∃ t, tr = tr₁ ++ x :: t) ∨ tr₁ = tr ∧ x ∈ evs := by
  rcases hone with rfl | ⟨o, rfl⟩
  · rw [List.append_nil] at h
    exact .inl ⟨tr₂, h⟩
  · rcases List.eq_nil_or_concat tr₂ with rfl | ⟨t, y, rfl⟩
    · obtain ⟨rfl, hlast⟩ := List.append_inj' h rfl
      rw [List.singleton_inj.mp hlast]
      exact .inr ⟨rfl, List.mem_singleton_self x⟩
    · rw [List.concat_eq_append, ← List.cons_append, ← List.append_assoc] at h
      exact .inl ⟨t, (List.append_inj' h rfl).1⟩

theorem Faithful.snoc {tr evs : List (QueueObs ω)} (htr : Faithful tr)
    (hone : evs = [] ∨ ∃ o, evs = [o]) (hevs : ∀ o ∈ evs, Tells (owed tr) o) :
    Faithful (tr ++ evs) := by
  intro tr₁ x tr₂ heq
  rcases split_snoc hone heq with ⟨t, rfl⟩ | ⟨rfl, hmem⟩
  · exact htr tr₁ x t rfl
  · exact hevs x hmem

theorem run_sound {ok : Invoker ω → QueueAct ω → Prop} {abspri : ω → Fin numpri}
    {s : Invoker ω} {tr : List (QueueObs ω)} (h : Transition.Run step ok (init abspri) tr s) :
    s.queue.Sound :=
  h.invariant (I := fun s => s.queue.Sound)
    (fun _ _ _ _ hs _ hstep => ((step_turns hstep).told hs).1) (Pendings.new_sound abspri)

/-- In every run the queue stays sound, waits with exactly the events that are owed, and
tells every callback, and every caller of `ev_clear_pending`, the events its watcher was
fed since the last time. -/
theorem run_told {ok : Invoker ω → QueueAct ω → Prop} {abspri : ω → Fin numpri}
    {s : Invoker ω} {tr : List (QueueObs ω)} (h : Transition.Run step ok (init abspri) tr s) :
    s.queue.Sound ∧ s.queue.told = owed tr ∧ Faithful tr := by
  refine h.invariant_trace (I := fun tr s =>
    s.queue.Sound ∧ s.queue.told = owed tr ∧ Faithful tr) ?_ ?_
  · rintro tr s i s' evs ⟨hs, htold, hfaithful⟩ - hstep
    have hturns := step_turns hstep
    obtain ⟨hs', -, htold', htells⟩ := hturns.told hs
    rw [htold] at htold' htells
    refine ⟨hs', ?_, hfaithful.snoc hturns.atMostOne htells⟩
    rw [owed_append, htold']
  · refine ⟨Pendings.new_sound abspri, ?_, ?_⟩
    · funext w
      rfl
    · intro tr₁ o tr₂ heq
      simp at heq

/-- Two watchers of one priority and one of a higher; the watcher `1` is fed twice. -/
def fedThree : List (QueueAct (Fin 3)) :=
  [.feed 0 1, .feed 1 2, .feed 2 0x100, .feed 1 1]

/-- The priorities of the three. -/
def twoLevels (w : Fin 3) : Fin numpri := if w = 2 then ⟨4, by decide⟩ else defaultPri

theorem run_told_fedThree :
    (Transition.after step (fun _ _ => True) (init twoLevels)
        (fedThree ++ [.enter, .next, .clear 0])).1.queue.Sound ∧
      (Transition.after step (fun _ _ => True) (init twoLevels)
        (fedThree ++ [.enter, .next, .clear 0])).1.queue.told =
      owed (Transition.after step (fun _ _ => True) (init twoLevels)
        (fedThree ++ [.enter, .next, .clear 0])).2 ∧
      Faithful (Transition.after step (fun _ _ => True) (init twoLevels)
        (fedThree ++ [.enter, .next, .clear 0])).2 :=
  run_told (Transition.run_after (by decide +kernel))

/-! ## A call drains what was pending -/

/-- `r'` has every event of `r`. -/
def Covers (r' r : Revents) : Prop := r' ||| r = r'

theorem Covers.refl (r : Revents) : Covers r r := BitVec.or_self

theorem Covers.or {r' r : Revents} (h : Covers r' r) (x : Revents) : Covers (r' ||| x) r := by
  unfold Covers at *
  rw [BitVec.or_assoc, BitVec.or_comm x r, ← BitVec.or_assoc, h]

/-- A trace settles that `w` waited with the events `r`: they are cleared, or a callback is
told all of them. -/
def Settled (w : ω) (r : Revents) (tr : List (QueueObs ω)) : Prop :=
  cleared w ∈ tr ∨ (∃ x, returned w x ∈ tr) ∨ ∃ r', invoked w r' ∈ tr ∧ Covers r' r

omit [DecidableEq ω] in
theorem Settled.append {w : ω} {r : Revents} {tr : List (QueueObs ω)} (h : Settled w r tr)
    (evs : List (QueueObs ω)) : Settled w r (tr ++ evs) := by
  rcases h with h | ⟨x, h⟩ | ⟨r', h, hcovers⟩
  · exact .inl (List.mem_append_left _ h)
  · exact .inr (.inl ⟨x, List.mem_append_left _ h⟩)
  · exact .inr (.inr ⟨r', List.mem_append_left _ h, hcovers⟩)

/-- Inside a call that has `c` priorities before it, `w` still waits for a turn. -/
structure Awaits (s : Invoker ω) (base : List (Fin (numpri + 1))) (w : ω) (r : Revents)
    (above : List (Fin (numpri + 1))) (c : Fin (numpri + 1)) (r' : Revents) : Prop where
  frames : s.frames = above ++ c :: base
  before : (s.queue.abspri w).val < c.val
  told : s.queue.told w = some r'
  covers : Covers r' r

theorem Turns.awaits {s s' : Invoker ω} {evs : List (QueueObs ω)} (h : Turns s s' evs)
    (hs : s.queue.Sound) {base above : List (Fin (numpri + 1))} {w : ω} {r r' : Revents}
    {c : Fin (numpri + 1)} (hw : Awaits s base w r above c r') :
    Settled w r evs ∨ ∃ above' c' r'', Awaits s' base w r above' c' r'' := by
  obtain ⟨hframes, hbefore, htold, hcovers⟩ := hw
  cases h with
  | @feeds x revents =>
      refine .inr ⟨above, c, if w = x then r' ||| revents else r', hframes, ?_, ?_, ?_⟩
      · rwa [Pendings.evFeedEvent_abspri]
      · rw [hs.told_evFeedEvent]
        by_cases hx : w = x
        · simp [← hx, htold]
        · simp [hx, htold]
      · split
        · exact hcovers.or revents
        · exact hcovers
  | @clears x =>
      by_cases hx : w = x
      · exact .inl (.inl (by simp [hx]))
      · refine .inr ⟨above, c, r', hframes, ?_, ?_, hcovers⟩
        · rwa [Pendings.clearPending_abspri]
        · rw [hs.told_clearPending, Function.update_of_ne hx, htold]
  | @returns x =>
      by_cases hx : w = x
      · exact .inl (.inr (.inl ⟨_, by rw [hx]; exact List.mem_singleton_self _⟩))
      · refine .inr ⟨above, c, r', hframes, ?_, ?_, hcovers⟩
        · rwa [Pendings.clearPending_abspri]
        · rw [hs.told_clearPending, Function.update_of_ne hx, htold]
  | enters =>
      refine .inr ⟨Fin.last numpri :: above, c, r', ?_, hbefore, htold, hcovers⟩
      rw [List.cons_append, hframes]
  | leaves hleft =>
      rw [hframes] at hleft
      cases above with
      | nil =>
          -- all priorities are done, so that of `w` is
          rw [(List.cons.inj hleft).1] at hbefore
          exact absurd hbefore (Nat.not_lt_zero _)
      | cons top above =>
          exact .inr ⟨above, c, r', (List.cons.inj hleft).2.symm, hbefore, htold, hcovers⟩
  | @advances pri frames hpri hnil =>
      rw [hframes] at hpri
      cases above with
      | nil =>
          obtain ⟨rfl, rfl⟩ := List.cons.inj hpri
          have hne : s.queue.abspri w ≠ pri := by
            rintro rfl
            rw [hs.told_of_empty hnil] at htold
            cases htold
          have hlt : (s.queue.abspri w).val < pri.val := by
            have hne' := Fin.val_ne_of_ne hne
            rw [Fin.val_succ] at hbefore
            omega
          exact .inr ⟨[], pri.castSucc, r', rfl, hlt, htold, hcovers⟩
      | cons top above =>
          refine .inr ⟨pri.castSucc :: above, c, r', ?_, hbefore, htold, hcovers⟩
          rw [List.cons_append, ← (List.cons.inj hpri).2]
          rfl
  | drops _ htake =>
      obtain ⟨-, hpri, hsame⟩ := hs.takeLast_dummy htake
      exact .inr ⟨above, c, r', hframes, hpri ▸ hbefore, hsame ▸ htold, hcovers⟩
  | @invokes _ _ x revents _ _ htake =>
      obtain ⟨-, hpri, -, hwas, hthen⟩ := hs.takeLast_watcher htake
      by_cases hx : w = x
      · subst hx
        obtain rfl : r' = revents := Option.some.inj (htold.symm.trans hwas)
        exact .inl (.inr (.inr ⟨r', List.mem_singleton_self _, hcovers⟩))
      · refine .inr ⟨above, c, r', hframes, hpri ▸ hbefore, ?_, hcovers⟩
        rw [hthen, Function.update_of_ne hx, htold]

/-- Whatever the callbacks do, `ev_invoke_pending` has not returned before every watcher that
was pending when it was entered is cleared or called back with all that it waited for. -/
theorem enter_drains {ok ok' : Invoker ω → QueueAct ω → Prop} {abspri : ω → Fin numpri}
    {s s' : Invoker ω} {tr tr' : List (QueueObs ω)}
    (h : Transition.Run step ok (init abspri) tr s)
    (h' : Transition.Run step ok' ⟨s.queue, Fin.last numpri :: s.frames⟩ tr' s')
    (hback : s'.frames.length ≤ s.frames.length) {w : ω} {r : Revents}
    (hw : s.queue.told w = some r) : Settled w r tr' := by
  have hsound := run_sound h
  have hrun := h'.invariant_trace (I := fun tr s' => s'.queue.Sound ∧
    (Settled w r tr ∨ ∃ above c r', Awaits s' s.frames w r above c r')) ?_ ?_
  · rcases hrun.2 with hsettled | ⟨above, c, r', hawaits⟩
    · exact hsettled
    · have hlen := congrArg List.length hawaits.frames
      simp only [List.length_append, List.length_cons] at hlen
      omega
  · rintro tr s i s' evs ⟨hs, hwait⟩ - hstep
    have hturns := step_turns hstep
    refine ⟨(hturns.told hs).1, ?_⟩
    rcases hwait with hsettled | ⟨above, c, r', hawaits⟩
    · exact .inl (hsettled.append evs)
    · rcases hturns.awaits hs hawaits with hnow | hlater
      · refine .inl ?_
        rcases hnow with h | ⟨x, h⟩ | ⟨r', h, hcovers⟩
        · exact .inl (List.mem_append_right _ h)
        · exact .inr (.inl ⟨x, List.mem_append_right _ h⟩)
        · exact .inr (.inr ⟨r', List.mem_append_right _ h, hcovers⟩)
      · exact .inr hlater
  · refine ⟨hsound, .inr ⟨[], Fin.last numpri, r, rfl, ?_, hw, .refl r⟩⟩
    exact (s.queue.abspri w).isLt

/-- The turns of a call that is entered after `fedThree`, in which the first callback feeds
the watcher `0` and calls `ev_invoke_pending` again. -/
def nestedTurns : List (QueueAct (Fin 3)) :=
  [.next, .feed 0 2, .next, .next, .enter] ++ List.replicate 12 .next

/-- The state and the trace of `fedThree`. -/
def afterFeeds : Invoker (Fin 3) × List (QueueObs (Fin 3)) :=
  Transition.after step (fun _ _ => True) (init twoLevels) fedThree

theorem afterFeeds_run :
    Transition.Run step (fun _ _ => True) (init twoLevels) afterFeeds.2 afterFeeds.1 :=
  Transition.run_after (by decide +kernel)

/-- The state and the trace of `nestedTurns`. -/
def afterTurns : Invoker (Fin 3) × List (QueueObs (Fin 3)) :=
  Transition.after step (fun t _ => afterFeeds.1.frames.length < t.frames.length)
    ⟨afterFeeds.1.queue, Fin.last numpri :: afterFeeds.1.frames⟩ nestedTurns

theorem afterTurns_run :
    Transition.Run step (fun t _ => afterFeeds.1.frames.length < t.frames.length)
      ⟨afterFeeds.1.queue, Fin.last numpri :: afterFeeds.1.frames⟩ afterTurns.2 afterTurns.1 :=
  Transition.run_after (by decide +kernel)

theorem enter_drains_nestedTurns : Settled 0 1 afterTurns.2 :=
  enter_drains afterFeeds_run afterTurns_run (by decide +kernel) (by decide +kernel)

/-! ## The order of the callbacks -/

/-- `w` comes before `v` in a call: a higher priority, or a later slot of the same one. -/
def Before (p : Pendings ω) (w v : ω) : Prop :=
  (p.pending w ≠ 0 ∧ p.pending v ≠ 0) ∧ (p.abspri v < p.abspri w ∨
    p.abspri v = p.abspri w ∧ p.pending v < p.pending w)

/-- An event after which a watcher no longer waits in the slot it had. -/
def touches (w : ω) : QueueObs ω → Bool
  | cleared x => x = w
  | returned x _ => x = w
  | invoked x _ => x = w
  | _ => false

/-- Inside a call, both watchers still have the slots they had when it was entered, and every
call that is running has the priority of `w` before it. -/
structure Queued (p : Pendings ω) (base : List (Fin (numpri + 1))) (w v : ω)
    (s : Invoker ω) : Prop where
  abspri : s.queue.abspri = p.abspri
  first : s.queue.pending w = p.pending w
  second : s.queue.pending v = p.pending v
  frames : ∃ above, s.frames = above ++ base ∧ ∀ c ∈ above, (p.abspri w).val < c.val

theorem Turns.queued {p : Pendings ω} {base : List (Fin (numpri + 1))} {w v : ω}
    {s s' : Invoker ω} {evs : List (QueueObs ω)} (h : Turns s s' evs) (hs : s.queue.Sound)
    (hbefore : Before p w v) (hq : Queued p base w v s)
    (hin : base.length < s.frames.length) :
    (∀ r, invoked v r ∉ evs) ∧
      ((∃ o ∈ evs, touches w o ∨ touches v o) ∨ Queued p base w v s') := by
  obtain ⟨habspri, hfirst, hsecond, above, hframes, habove⟩ := hq
  obtain ⟨⟨hwp, hvp⟩, horder⟩ := hbefore
  have hw0 : s.queue.pending w ≠ 0 := hfirst ▸ hwp
  have hv0 : s.queue.pending v ≠ 0 := hsecond ▸ hvp
  cases h with
  | feeds =>
      refine ⟨by simp, .inr ⟨?_, ?_, ?_, above, hframes, habove⟩⟩
      · rwa [Pendings.evFeedEvent_abspri]
      · rwa [Pendings.evFeedEvent_pending hw0]
      · rwa [Pendings.evFeedEvent_pending hv0]
  | @clears x =>
      refine ⟨by simp, ?_⟩
      by_cases hx : w = x ∨ v = x
      · refine .inl ⟨_, List.mem_singleton_self _, ?_⟩
        rcases hx with rfl | rfl <;> simp [touches]
      · rw [not_or] at hx
        refine .inr ⟨?_, ?_, ?_, above, hframes, habove⟩
        · rwa [Pendings.clearPending_abspri]
        · rwa [Pendings.clearPending_pending hx.1]
        · rwa [Pendings.clearPending_pending hx.2]
  | @returns x =>
      refine ⟨by simp, ?_⟩
      by_cases hx : w = x ∨ v = x
      · refine .inl ⟨_, List.mem_singleton_self _, ?_⟩
        rcases hx with rfl | rfl <;> simp [touches]
      · rw [not_or] at hx
        refine .inr ⟨?_, ?_, ?_, above, hframes, habove⟩
        · rwa [Pendings.clearPending_abspri]
        · rwa [Pendings.clearPending_pending hx.1]
        · rwa [Pendings.clearPending_pending hx.2]
  | enters =>
      refine ⟨by simp, .inr ⟨habspri, hfirst, hsecond, Fin.last numpri :: above, ?_, ?_⟩⟩
      · rw [List.cons_append, ← hframes]
      · exact List.forall_mem_cons.mpr ⟨(p.abspri w).isLt, habove⟩
  | leaves hleft =>
      rw [hframes] at hleft hin
      cases above with
      | nil => simp at hin
      | cons top above =>
          obtain ⟨htop, habove⟩ := List.forall_mem_cons.mp habove
          rw [(List.cons.inj hleft).1] at htop
          exact absurd htop (Nat.not_lt_zero _)
  | @advances pri frames hpri hnil =>
      refine ⟨by simp, .inr ⟨habspri, hfirst, hsecond, ?_⟩⟩
      rw [hframes] at hpri hin
      cases above with
      | nil => simp at hin
      | cons top above =>
          obtain ⟨htop, hothers⟩ := List.forall_mem_cons.mp habove
          obtain ⟨rfl, hrest⟩ := List.cons.inj hpri
          refine ⟨pri.castSucc :: above, ?_, List.forall_mem_cons.mpr ⟨?_, hothers⟩⟩
          · rw [List.cons_append, ← hrest]
            rfl
          · have hne : s.queue.abspri w ≠ pri := by
              rintro rfl
              exact hw0 ((Pendings.told_eq_none hs).mp (hs.told_of_empty hnil))
            rw [habspri] at hne
            have hne' := Fin.val_ne_of_ne hne
            rw [Fin.val_succ] at htop
            rw [Fin.val_castSucc]
            omega
  | drops _ htake =>
      obtain ⟨hsame, hw⟩ := Pendings.takeLast_pending htake (w := w) (by simp)
      obtain ⟨-, hv⟩ := Pendings.takeLast_pending htake (w := v) (by simp)
      exact ⟨by simp, .inr ⟨hsame ▸ habspri, hw ▸ hfirst, hv ▸ hsecond, above, hframes, habove⟩⟩
  | @invokes c frames x revents queue hc htake =>
      by_cases hxw : w = x
      · subst hxw
        refine ⟨fun r hr => ?_, .inl ⟨_, List.mem_singleton_self _, by simp [touches]⟩⟩
        have heq := List.mem_singleton.mp hr
        simp only [invoked.injEq] at heq
        obtain ⟨rfl, -⟩ := heq
        rcases horder with hlt | ⟨-, hlt⟩
        · exact Nat.lt_irrefl _ (Fin.lt_def.mp hlt)
        · exact Nat.lt_irrefl _ hlt
      · have hxv : v ≠ x := by
          -- the call has the priority of `w` before it, and there the slot of `w` is later
          rintro rfl
          obtain ⟨-, -, hpri, -, -⟩ := hs.takeLast_watcher htake
          rw [hframes] at hc hin
          cases above with
          | nil => simp at hin
          | cons top above =>
              have htop := habove top List.mem_cons_self
              rw [(List.cons.inj hc).1, Fin.val_succ] at htop
              rw [habspri] at hpri
              rcases horder with hlt | ⟨heq, hlt⟩
              · rw [hpri] at hlt
                have hlt' := Fin.lt_def.mp hlt
                omega
              · have hle := hs.takeLast_isLast htake hw0 (by rw [habspri, ← heq, hpri])
                rw [hfirst, hsecond] at hle
                omega
        refine ⟨fun r hr => ?_, .inr ?_⟩
        · have heq := List.mem_singleton.mp hr
          simp only [invoked.injEq] at heq
          exact hxv heq.1
        · obtain ⟨hsame, hw⟩ :=
            Pendings.takeLast_pending htake (w := w) (by simpa using Ne.symm hxw)
          obtain ⟨-, hv⟩ := Pendings.takeLast_pending htake (w := v) (by simpa using Ne.symm hxv)
          exact ⟨hsame ▸ habspri, hw ▸ hfirst, hv ▸ hsecond, above, hframes, habove⟩

/-- The order of the callbacks in a call that is entered with a sound queue. -/
theorem inOrder_of_sound {s s' : Invoker ω} {tr : List (QueueObs ω)} (hs : s.queue.Sound)
    (h : Transition.Run step (fun t _ => s.frames.length < t.frames.length)
      ⟨s.queue, Fin.last numpri :: s.frames⟩ tr s')
    {w v : ω} (hbefore : Before s.queue w v) {tr₁ tr₂ : List (QueueObs ω)} {r : Revents}
    (hsplit : tr = tr₁ ++ invoked v r :: tr₂) : ∃ o ∈ tr₁, touches w o ∨ touches v o := by
  have hrun := h.invariant_trace (I := fun tr t => t.queue.Sound ∧
    (∀ tr₁ r tr₂, tr = tr₁ ++ invoked v r :: tr₂ → ∃ o ∈ tr₁, touches w o ∨ touches v o) ∧
    ((∃ o ∈ tr, touches w o ∨ touches v o) ∨ Queued s.queue s.frames w v t)) ?_ ?_
  · exact hrun.2.1 tr₁ r tr₂ hsplit
  · rintro tr t i t' evs ⟨hs, hord, hnow⟩ hin hstep
    have hturns := step_turns hstep
    refine ⟨(hturns.told hs).1, fun tr₁ r tr₂ heq => ?_, ?_⟩
    · rcases split_snoc hturns.atMostOne heq with ⟨t, rfl⟩ | ⟨rfl, hmem⟩
      · exact hord tr₁ r t rfl
      · rcases hnow with htouched | hq
        · exact htouched
        · exact absurd hmem ((hturns.queued hs hbefore hq hin).1 r)
    · rcases hnow with ⟨o, ho, htouched⟩ | hq
      · exact .inl ⟨o, List.mem_append_left _ ho, htouched⟩
      · rcases (hturns.queued hs hbefore hq hin).2 with ⟨o, ho, htouched⟩ | hlater
        · exact .inl ⟨o, List.mem_append_right _ ho, htouched⟩
        · exact .inr hlater
  · refine ⟨hs, fun tr₁ r tr₂ heq => ?_, .inr ?_⟩
    · simp at heq
    · refine ⟨rfl, rfl, rfl, [Fin.last numpri], rfl, ?_⟩
      exact List.forall_mem_singleton.mpr (s.queue.abspri w).isLt

/-- While a call of `ev_invoke_pending` is running, of two watchers that were pending when it
was entered the one of the lower priority, or of the earlier slot, is not called back before
one of the two was called back or cleared: the order is that of the priorities, the last slot
first. -/
theorem enter_inOrder {ok : Invoker ω → QueueAct ω → Prop} {abspri : ω → Fin numpri}
    {s s' : Invoker ω} {tr tr' : List (QueueObs ω)}
    (h : Transition.Run step ok (init abspri) tr s)
    (h' : Transition.Run step (fun t _ => s.frames.length < t.frames.length)
      ⟨s.queue, Fin.last numpri :: s.frames⟩ tr' s')
    {w v : ω} (hbefore : Before s.queue w v) {tr₁ tr₂ : List (QueueObs ω)} {r : Revents}
    (hsplit : tr' = tr₁ ++ invoked v r :: tr₂) : ∃ o ∈ tr₁, touches w o ∨ touches v o :=
  inOrder_of_sound (run_sound h) h' hbefore hsplit

theorem enter_inOrder_nestedTurns :
    ∃ o ∈ [invoked (2 : Fin 3) 0x100, fed 0 2, entered], touches 2 o ∨ touches 1 o := by
  have htrace : afterTurns.2 = [invoked 2 0x100, fed 0 2, entered] ++
      invoked 1 3 :: [invoked 0 3, left, left] := by decide +kernel
  exact enter_inOrder afterFeeds_run afterTurns_run
    ⟨by decide +kernel, by decide +kernel⟩ htrace

end Invoker

end BoostCoro.Libev
