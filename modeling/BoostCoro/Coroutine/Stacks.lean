import BoostCoro.Coroutine.Running
/-!
# Calls that end only by themselves

A blocking `mget` and a wait stay on the stack of their context, under the
`yield` in which they give up control, until they take the step that ends them.
-/

namespace BoostCoro.Coroutine

/-- A blocking `mget` or a wait. -/
def Frame.isWork : Frame → Bool
  | mget _ => true
  | wait _ _ _ => true
  | _ => false

/-- The blocking calls of a stack. -/
def work (fs : List Frame) : List Frame := fs.filter Frame.isWork

theorem mem_work {fs : List Frame} {f : Frame} : f ∈ work fs ↔ f ∈ fs ∧ f.isWork = true :=
  List.mem_filter

/-- The call that a step starts. -/
def Starts (s : State) (f : Frame) (evs : List Obs) : Prop :=
  (∃ q, f = .mget q ∧ s.running = some q) ∨
    ∃ c spec b, f = .wait c spec b ∧ .waitBegan c spec b ∈ evs

/-- The call that a step ends. -/
def Ends (s : State) (f : Frame) (evs : List Obs) : Prop :=
  (∃ q m, f = .mget q ∧ s.running = some q ∧ evs = [.received q m]) ∨
    ∃ c spec b, f = .wait c spec b ∧ evs = [.waitEnded c spec b]

variable {s s' : State} {a : Act} {evs : List Obs} {c q : CoroId}

theorem setStack_stack (s : Sched) (fs : List Frame) (x : Ctx) :
    (s.setStack fs).stack x = if x = s.running then fs else s.stack x := by
  exact Function.update_apply ..

/-- Work on the stack of the running context that a step leaves alone. -/
theorem work_setStack {t : Sched} {fs fs' : List Frame} (htop : t.stack t.running = fs)
    (hwork : work fs' = work fs) (x : Ctx) :
    work ((t.setStack fs').stack x) = work (t.stack x) := by
  rw [setStack_stack]
  split
  next hx => rw [hx, htop, hwork]
  next => rfl

theorem work_pop {t : Sched} {rest : List Frame} (x : Ctx) :
    work ((t.setStack rest).stack x) = if x = t.running then work rest else work (t.stack x) := by
  rw [setStack_stack]
  split <;> rfl

theorem work_push {t : Sched} {f : Frame} (hf : f.isWork = true) (x : Ctx) :
    work ((t.push f).stack x) =
      if x = t.running then f :: work (t.stack x) else work (t.stack x) := by
  unfold Sched.push
  rw [setStack_stack]
  split
  next hx => rw [hx, work, List.filter_cons_of_pos hf, ← work]
  next => rfl

theorem work_switchTo (t : Sched) (c : CoroId) (x : Ctx) :
    work ((t.switchTo c).stack x) = work (t.stack x) := by
  rw [SchedInv.switchTo_stack]
  split
  next hx =>
    rw [hx.2]
    rfl
  next => rfl

theorem EnterPass.work_eq {coro : Option CoroId} (hpass : EnterPass s coro s' evs) (x : Ctx) :
    work (s'.stack x) = work (s.stack x) := by
  cases hpass with
  | skip => rfl
  | @enter cur _ _ =>
      show work (((s.dropChld cur).toSched.push _).stack x) = _
      rw [dropChld_toSched]
      exact work_setStack rfl (by rfl) x

/-- A step starts one blocking call, ends the innermost call of the running
context, or leaves the blocking calls of every live context as they are. -/
theorem Effect.work_cases (heffect : Effect s a s' evs) :
    (∀ x, s.OwnerLive x → work (s'.stack x) = work (s.stack x)) ∨
    (∃ f, Starts s f evs ∧ ∀ x, s.OwnerLive x →
      work (s'.stack x) = if x = s.running then f :: work (s.stack x) else work (s.stack x)) ∨
    ∃ f rest, s.stack s.running = f :: rest ∧ Ends s f evs ∧ ∀ x, s.OwnerLive x →
      work (s'.stack x) = if x = s.running then work rest else work (s.stack x) := by
  cases heffect with
  | resumeIdle htop => exact .inl fun x _ => work_setStack htop (by rfl) x
  | resumeStraight htop => exact .inl fun x _ => work_setStack htop (by rfl) x
  | resumePass htop _ _ _ hpass =>
      exact .inl fun x _ => (hpass.work_eq x).trans (work_setStack htop (by rfl) x)
  | resumeWaiting htop => exact .inl fun x _ => work_setStack htop (by rfl) x
  | transfer htop =>
      exact .inl fun x _ => (work_switchTo _ _ x).trans (work_setStack htop (by rfl) x)
  | resumeBack htop => exact .inl fun x _ => work_setStack htop (by rfl) x
  | passEnd htop => exact .inl fun x _ => work_setStack htop (by rfl) x
  | @passDestroy cur _ child childs _ htop =>
      exact .inl fun x _ =>
        work_setStack (t := (s.toSched.setChilds cur childs).destroy child) htop (by rfl) x
  | @passHold cur _ _ childs _ htop =>
      exact .inl fun x _ => work_setStack (t := s.toSched.setChilds cur childs) htop (by rfl) x
  | @passDrop _ _ child _ htop =>
      exact .inl fun x _ => work_setStack (t := s.toSched.destroy child) htop (by rfl) x
  | @passKeep cur _ child _ htop =>
      exact .inl fun x _ =>
        work_setStack (t := s.toSched.setChilds cur (s.coroChilds cur ++ [child])) htop (by rfl) x
  | allEnd _ htop => exact .inl fun x _ => work_setStack htop (by rfl) x
  | allPass _ _ _ hpass => exact .inl fun x _ => hpass.work_eq x
  | yieldOut _ htop => exact .inl fun x _ => work_setStack htop (by rfl) x
  | yieldBack _ htop => exact .inl fun x _ => work_setStack htop (by rfl) x
  | executeEntry _ htop => exact .inl fun x _ => work_setStack htop (by rfl) x
  | executePass _ _ _ hpass => exact .inl fun x _ => hpass.work_eq x
  | @finish c _ htop =>
      exact .inl fun x _ => work_setStack (t := s.toSched.setStat c coroStatDone) htop (by rfl) x
  | @mgetSleep q _ _ _ _ htop _ hpass =>
      exact .inl fun x _ => (hpass.work_eq x).trans
        (work_setStack (t := (s.startWait .msg q).toSched) rfl (by rfl) x)
  | @mgetTake q rest m _ hrun htop =>
      exact .inr (.inr ⟨.mget q, rest, htop, .inl ⟨q, m, rfl, hrun, rfl⟩,
        fun x _ => work_pop (t := s.toSched) x⟩)
  | @waitPersist c spec b rest htop =>
      exact .inr (.inr ⟨.wait c spec b, rest, htop, .inr ⟨c, spec, b, rfl, rfl⟩,
        fun x _ => work_pop (t := s.toSched) x⟩)
  | @waitRelease c spec b rest _ htop =>
      exact .inr (.inr ⟨.wait c spec b, rest, htop, .inr ⟨c, spec, b, rfl, rfl⟩,
        fun x _ => work_pop (t := s.toSched) x⟩)
  | @create c _ _ hc =>
      refine .inl fun x hx => ?_
      have hne : x ≠ some c := fun h => hc (hx c h)
      exact congrArg work (Function.update_of_ne hne ..)
  | child => exact .inl fun _ _ => rfl
  | callResume => exact .inl fun x _ => work_setStack rfl (by rfl) x
  | callResumeAll => exact .inl fun x _ => work_setStack rfl (by rfl) x
  | callPass _ hpass => exact .inl fun x _ => hpass.work_eq x
  | callYield _ _ hpass =>
      exact .inl fun x _ => (hpass.work_eq x).trans (work_setStack rfl (by rfl) x)
  | bodyReturn _ htop => exact .inl fun x _ => work_setStack htop (by rfl) x
  | @callMget q _ hrun =>
      exact .inr (.inl ⟨.mget q, .inl ⟨q, rfl, hrun⟩,
        fun x _ => work_push (t := s.toSched) rfl x⟩)
  | @waitMain _ c spec b =>
      exact .inr (.inl ⟨.wait c spec b, .inr ⟨c, spec, b, rfl, List.mem_cons_self⟩,
        fun x _ => work_push (t := (s.startWait .evet c).toSched) rfl x⟩)
  | @waitCoro _ c _ spec b r _ _ _ _ _ _ hpass =>
      refine .inr (.inl ⟨.wait c spec b, .inr ⟨c, spec, b, rfl, List.mem_cons_self⟩,
        fun x _ => ?_⟩)
      refine (hpass.work_eq x).trans ?_
      refine (work_setStack rfl (by rfl) x).trans ?_
      exact work_push (t := (s.startWait .evet c).toSched) rfl x
  | quiet _ hquiet => exact .inl fun x _ => by rw [hquiet.sched]

end BoostCoro.Coroutine
