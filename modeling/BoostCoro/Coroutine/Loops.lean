import BoostCoro.Coroutine.Stacks
/-!
# What a step does to the stacks

A step takes at most one frame off the stack of the running context and puts some on;
the other stacks stay, but a coroutine that is resumed for the first time gets its
`execute`. Of the loops of `resume_childs` a step either leaves all alone, or enters
one, or it is itself a step of the innermost.
-/

namespace BoostCoro.Coroutine

/-- The loop of a `resume_childs`. -/
def Frame.isLoop : Frame → Bool
  | resumeChilds _ _ _ _ => true
  | _ => false

/-- The loops in a stack. -/
def loopsIn (fs : List Frame) : List Frame := fs.filter Frame.isLoop

theorem loopsIn_append (fs gs : List Frame) : loopsIn (fs ++ gs) = loopsIn fs ++ loopsIn gs :=
  List.filter_append ..

/-- The contexts that can be reached. -/
def Sched.contexts (s : Sched) : List Ctx := none :: s.pool.map some

/-- The loops in progress. -/
def Sched.loops (s : Sched) : List Frame := s.contexts.flatMap fun x => loopsIn (s.stack x)

/-- The running context has the frames `old` on top of `rest` before the step, and `new`
after it. -/
structure Moves (s s' : State) (old new rest : List Frame) : Prop where
  old_le : old.length ≤ 1
  before : s.stack s.running = old ++ rest
  after : s'.stack s.running = new ++ rest
  other : ∀ x, x ≠ s.running → s.OwnerLive x →
    s'.stack x = s.stack x ∨ s.stack x = [] ∧ ∃ c, s'.stack x = [.execute c .entry]

/-- What becomes of the loops among these frames. -/
inductive LoopMove (s : State) (old new : List Frame) : Prop
  | same (h : loopsIn new = loopsIn old)
  | enter {cur : Ctx} (hlive : s.OwnerLive cur)
      (h : loopsIn new =
        .resumeChilds s.running cur (s.coroChilds cur).length none :: loopsIn old)
  | own {cur : Ctx} {k : Nat} {child : Option CoroId}
      (h : old = [.resumeChilds s.running cur k child])

variable {s s' : State} {a : Act} {evs : List Obs} {old new rest : List Frame}

namespace Moves

/-- The stack of the running context is replaced. -/
theorem of_setStack {t : Sched} (hrun : t.running = s.running) (hstack : t.stack = s.stack)
    (htop : s.stack s.running = old ++ rest) (hold : old.length ≤ 1)
    (hs' : s'.stack = (t.setStack (new ++ rest)).stack) : Moves s s' old new rest where
  old_le := hold
  before := htop
  after := by rw [hs', setStack_stack, hrun, if_pos rfl]
  other := fun x hx _ => .inl (by rw [hs', setStack_stack, hrun, if_neg hx, hstack])

/-- No stack changes. -/
theorem of_same (h : s'.stack = s.stack) : Moves s s' [] [] (s.stack s.running) where
  old_le := Nat.zero_le 1
  before := rfl
  after := by rw [h, List.nil_append]
  other := fun x _ _ => .inl (by rw [h])

end Moves

theorem EnterPass.stack_cases {coro : Option CoroId} (hpass : EnterPass s coro s' evs) :
    s' = s ∧ evs = [] ∨ ∃ cur, coro.or s.running = cur ∧ s.OwnerLive cur ∧
      s'.toSched = s.toSched.push
        (.resumeChilds s.running cur (s.coroChilds cur).length none) ∧
      evs = [.passBegin cur] := by
  cases hpass with
  | skip => exact .inl ⟨rfl, rfl⟩
  | @enter cur hcur hlive =>
      refine .inr ⟨cur, hcur, hlive, ?_, rfl⟩
      rw [← dropChld_toSched s cur]
      rfl

/-- A pass that is entered from a state which differs from `s` in the stack alone. -/
theorem EnterPass.moves {s t : State} {coro : Option CoroId} (old mid : List Frame)
    (hpass : EnterPass t coro s' evs) (hrun : t.running = s.running) (hpool : t.pool = s.pool)
    (hchilds : t.coroChilds = s.coroChilds)
    (hstack : t.stack = (s.toSched.setStack (mid ++ rest)).stack)
    (htop : s.stack s.running = old ++ rest) (hold : old.length ≤ 1)
    (hmid : loopsIn mid = loopsIn old) :
    ∃ old new rest, Moves s s' old new rest ∧ LoopMove s old new := by
  rcases hpass.stack_cases with ⟨rfl, -⟩ | ⟨cur, -, hlive, hsched, -⟩
  · exact ⟨old, mid, rest, .of_setStack (t := s.toSched) rfl rfl htop hold hstack, .same hmid⟩
  · refine ⟨old, .resumeChilds s.running cur (s.coroChilds cur).length none :: mid, rest,
      .of_setStack (t := s.toSched) rfl rfl htop hold ?_, @LoopMove.enter s _ _ cur ?_ ?_⟩
    · rw [hsched]
      unfold Sched.push Sched.setStack
      rw [hstack, hchilds, hrun]
      simp [Sched.setStack]
    · intro d hd
      rw [← hpool]
      exact hlive d hd
    · rw [← hmid]
      rfl

theorem Effect.moves (heffect : Effect s a s' evs) (hinv : SchedInv s.toSched) :
    ∃ old new rest, Moves s s' old new rest ∧ LoopMove s old new := by
  have hset : ∀ {t : Sched} {f : Frame} {rest : List Frame} (new : List Frame),
      t.running = s.running → t.stack = s.stack → s.stack s.running = f :: rest →
      s'.stack = (t.setStack (new ++ rest)).stack → LoopMove s [f] new →
      ∃ old new rest, Moves s s' old new rest ∧ LoopMove s old new :=
    fun new hrun hstack htop hs' hloop =>
      ⟨[_], new, _, .of_setStack hrun hstack htop (Nat.le_refl 1) hs', hloop⟩
  have hpush : ∀ {t : Sched} (f : Frame), t.running = s.running → t.stack = s.stack →
      s'.stack = (t.push f).stack → loopsIn [f] = [] →
      ∃ old new rest, Moves s s' old new rest ∧ LoopMove s old new := by
    intro t f hrun hstack hs' hloop
    refine ⟨[], [f], s.stack s.running, .of_setStack hrun hstack rfl (Nat.zero_le 1) ?_,
      .same hloop⟩
    rw [hs', Sched.push, hstack, hrun]
    rfl
  cases heffect with
  | resumeIdle htop => exact hset (t := s.toSched) [] rfl rfl htop rfl (.same rfl)
  | resumeStraight htop => exact hset (t := s.toSched) [_] rfl rfl htop rfl (.same rfl)
  | resumePass htop _ _ _ hpass =>
      exact EnterPass.moves (s := s) [.resume s.running _ .entry]
        [.resume s.running _ .transfer] hpass rfl rfl rfl rfl htop (Nat.le_refl 1) rfl
  | resumeWaiting htop => exact hset (t := s.toSched) [] rfl rfl htop rfl (.same rfl)
  | @transfer c rest htop hlive hstat =>
      refine ⟨[.resume s.running c .transfer], [.resume s.running c .back], rest,
        ⟨Nat.le_refl 1, htop, ?_, fun x hx _ => ?_⟩, .same rfl⟩
      · show (Sched.switchTo _ c).stack s.running = _
        rw [SchedInv.switchTo_stack, setStack_stack, if_pos rfl, if_neg (by simp)]
        rfl
      · show (Sched.switchTo _ c).stack x = _ ∨ _ ∧ ∃ d, (Sched.switchTo _ c).stack x = _
        rw [SchedInv.switchTo_stack, setStack_stack, if_neg hx]
        by_cases hnew : x = some c ∧ s.stack x = []
        · rw [if_pos hnew]
          exact .inr ⟨hnew.2, c, rfl⟩
        · rw [if_neg hnew]
          exact .inl rfl
  | resumeBack htop => exact hset (t := s.toSched) [] rfl rfl htop rfl (.same rfl)
  | passEnd htop => exact hset (t := s.toSched) [] rfl rfl htop rfl (.own rfl)
  | @passDestroy cur loop child childs _ htop =>
      exact hset (t := (s.toSched.setChilds cur childs).destroy child) [_] rfl rfl htop rfl
        (.own rfl)
  | @passHold cur loop child childs _ htop =>
      exact hset (t := s.toSched.setChilds cur childs) [_, _] rfl rfl htop rfl (.own rfl)
  | @passDrop cur loop child _ htop =>
      exact hset (t := s.toSched.destroy child) [_] rfl rfl htop rfl (.own rfl)
  | @passKeep cur loop child _ htop =>
      exact hset (t := s.toSched.setChilds cur (s.coroChilds cur ++ [child])) [_] rfl rfl htop
        rfl (.own rfl)
  | allEnd _ htop => exact hset (t := s.toSched) [] rfl rfl htop rfl (.same rfl)
  | allPass _ _ _ hpass =>
      exact EnterPass.moves (s := s) [] [] hpass rfl rfl rfl (Function.update_eq_self ..).symm rfl
        (Nat.zero_le 1) rfl
  | @yieldOut q _ _ htop =>
      exact hset (t := s.toSched) [.yield q .back] rfl rfl htop rfl (.same rfl)
  | yieldBack _ htop => exact hset (t := s.toSched) [] rfl rfl htop rfl (.same rfl)
  | executeEntry _ htop => exact hset (t := s.toSched) [_] rfl rfl htop rfl (.same rfl)
  | executePass _ _ _ hpass =>
      exact EnterPass.moves (s := s) [] [] hpass rfl rfl rfl (Function.update_eq_self ..).symm rfl
        (Nat.zero_le 1) rfl
  | @finish c _ htop =>
      exact hset (t := s.toSched.setStat c coroStatDone) [.execute c .back] rfl rfl htop rfl
        (.same rfl)
  | @mgetSleep q _ _ _ _ htop _ hpass =>
      refine EnterPass.moves (s := s) [.mget q] [.yield q .childs, .mget q] hpass rfl rfl rfl ?_
        htop (Nat.le_refl 1) rfl
      show Function.update s.stack s.running (.yield q .childs :: s.stack s.running) = _
      rw [htop]
      rfl
  | mgetTake _ htop => exact hset (t := s.toSched) [] rfl rfl htop rfl (.same rfl)
  | waitPersist htop => exact hset (t := s.toSched) [] rfl rfl htop rfl (.same rfl)
  | waitRelease htop => exact hset (t := s.toSched) [] rfl rfl htop rfl (.same rfl)
  | @create c _ _ hc =>
      have hne : ∀ x, s.OwnerLive x → x ≠ some c := fun x hx h => hc (hx c h)
      refine ⟨[], [], s.stack s.running, ⟨Nat.zero_le 1, rfl, ?_, fun x _ hx => .inl ?_⟩,
        .same rfl⟩
      · exact Function.update_of_ne (hne _ fun d hd => hinv.live d hd) ..
      · exact Function.update_of_ne (hne x hx) ..
  | child => exact ⟨_, _, _, .of_same rfl, .same rfl⟩
  | callResume => exact hpush (t := s.toSched) _ rfl rfl rfl rfl
  | callResumeAll => exact hpush (t := s.toSched) _ rfl rfl rfl rfl
  | callPass _ hpass =>
      exact EnterPass.moves (s := s) [] [] hpass rfl rfl rfl (Function.update_eq_self ..).symm rfl
        (Nat.zero_le 1) rfl
  | @callYield q _ _ _ _ hpass =>
      exact EnterPass.moves (s := s) [] [.yield q .childs] hpass rfl rfl rfl rfl rfl
        (Nat.zero_le 1) rfl
  | bodyReturn _ htop => exact hset (t := s.toSched) [_] rfl rfl htop rfl (.same rfl)
  | callMget => exact hpush (t := s.toSched) _ rfl rfl rfl rfl
  | @waitMain _ c => exact hpush (t := (s.startWait .evet c).toSched) _ rfl rfl rfl rfl
  | @waitCoro _ c q spec b _ _ _ _ _ _ _ hpass =>
      refine EnterPass.moves (s := s) [] [.yield q .childs, .wait c spec b] hpass rfl rfl rfl ?_
        rfl (Nat.zero_le 1) rfl
      show Function.update (Function.update s.stack s.running _) s.running
        (.yield q .childs :: Function.update s.stack s.running _ s.running) = _
      rw [Function.update_idem, Function.update_self]
      rfl
  | quiet _ hquiet => exact ⟨_, _, _, .of_same (by rw [hquiet.sched]), .same rfl⟩

/-! ## All loops in progress -/

theorem mem_contexts {t : Sched} {x : Ctx} : x ∈ t.contexts ↔ t.OwnerLive x := by
  cases x with
  | none => exact ⟨fun _ => nofun, fun _ => List.mem_cons_self⟩
  | some d =>
      constructor
      · intro h e he
        obtain ⟨d', hd', heq⟩ := List.mem_map.mp ((List.mem_cons.mp h).resolve_left nofun)
        exact Option.some.inj (heq.trans he) ▸ hd'
      · exact fun h => List.mem_cons_of_mem _ (List.mem_map_of_mem (h d rfl))

theorem SchedInv.contexts_nodup {t : Sched} (hinv : SchedInv t) : t.contexts.Nodup := by
  refine List.nodup_cons.mpr ⟨?_, hinv.nodup.map fun _ _ heq => Option.some.inj heq⟩
  intro hin
  obtain ⟨_, _, hnone⟩ := List.mem_map.mp hin
  cases hnone

/-- What a step does to the objects that exist. -/
theorem Effect.pool_cases (heffect : Effect s a s' evs) :
    s'.pool = s.pool ∨
    (∃ c, c ∉ s.pool ∧ s'.pool = c :: s.pool ∧ s'.stack (some c) = []) ∨
    ∃ c ∈ s.pool, s.stat c = coroStatDone ∧ s'.pool = s.pool.erase c := by
  have hpass : ∀ {t : State} {coro evs}, EnterPass t coro s' evs → t.pool = s.pool →
      s'.pool = s.pool := by
    intro t coro evs hpass hpool
    exact hpass.pool.trans hpool
  cases heffect with
  | resumePass _ _ _ _ hp => exact .inl (hpass hp rfl)
  | passDestroy _ _ _ hlive hdone => exact .inr (.inr ⟨_, hlive, hdone, rfl⟩)
  | passDrop _ hlive hdone => exact .inr (.inr ⟨_, hlive, hdone, rfl⟩)
  | allPass _ _ _ hp => exact .inl (hpass hp rfl)
  | executePass _ _ _ hp => exact .inl (hpass hp rfl)
  | mgetSleep _ _ _ hp => exact .inl (hpass hp rfl)
  | create _ hc => exact .inr (.inl ⟨_, hc, rfl, Function.update_self ..⟩)
  | callPass _ hp => exact .inl (hpass hp rfl)
  | callYield _ _ hp => exact .inl (hpass hp rfl)
  | waitCoro _ _ _ _ hp => exact .inl (hpass hp rfl)
  | quiet _ hquiet => exact .inl (by rw [hquiet.sched])
  | _ => exact .inl rfl

/-- A coroutine that comes or goes is in no loop. -/
theorem Effect.contexts_perm (heffect : Effect s a s' evs) (hinv : SchedInv s.toSched) :
    ∃ l : List Ctx, l.Nodup ∧ s.running ∈ l ∧ (∀ x ∈ l, s.OwnerLive x) ∧
      s.loops.Perm (l.flatMap fun x => loopsIn (s.stack x)) ∧
      s'.loops.Perm (l.flatMap fun x => loopsIn (s'.stack x)) := by
  have hmem : s.running ∈ s.contexts := mem_contexts.mpr fun d hd => hinv.live d hd
  have hlive : ∀ x ∈ s.contexts, s.OwnerLive x := fun x hx => mem_contexts.mp hx
  rcases heffect.pool_cases with hpool | ⟨c, -, hpool, hstack⟩ | ⟨c, hc, hdone, hpool⟩
  · refine ⟨s.contexts, hinv.contexts_nodup, hmem, hlive, .refl _, ?_⟩
    rw [Sched.loops, Sched.contexts, hpool]
    rfl
  · refine ⟨s.contexts, hinv.contexts_nodup, hmem, hlive, .refl _, ?_⟩
    have hperm : s'.contexts.Perm (some c :: s.contexts) := by
      rw [Sched.contexts, hpool]
      exact .swap ..
    refine (hperm.flatMap_right _).trans (.of_eq ?_)
    rw [List.flatMap_cons, hstack]
    rfl
  · have hperm : s.contexts.Perm (some c :: s'.contexts) := by
      have herase := (List.perm_cons_erase hc).map some
      rw [Sched.contexts, Sched.contexts, hpool]
      exact (herase.cons none).trans (.swap ..)
    have hne : s.running ≠ some c := hinv.running_ne hc (by rw [hdone]; decide)
    refine ⟨s'.contexts, (List.nodup_cons.mp (hperm.nodup hinv.contexts_nodup)).2,
      (List.mem_cons.mp (hperm.mem_iff.mp hmem)).resolve_left hne,
      fun x hx => hlive x (hperm.mem_iff.mpr (List.mem_cons_of_mem _ hx)), ?_, .refl _⟩
    refine (hperm.flatMap_right _).trans (.of_eq ?_)
    rw [List.flatMap_cons, hinv.finished c hc hdone]
    rfl

/-- Beside the frames that a step takes off and puts on, the loops stay. -/
theorem Moves.loops_perm (hmoves : Moves s s' old new rest) (heffect : Effect s a s' evs)
    (hinv : SchedInv s.toSched) :
    ∃ R, s.loops.Perm (loopsIn old ++ R) ∧ s'.loops.Perm (loopsIn new ++ R) := by
  obtain ⟨l, hnodup, hmem, hlive, hloops, hloops'⟩ := heffect.contexts_perm hinv
  have hperm := List.perm_cons_erase hmem
  have hothers : ∀ x ∈ l.erase s.running, loopsIn (s'.stack x) = loopsIn (s.stack x) := by
    intro x hx
    obtain ⟨hne, hx⟩ := hnodup.mem_erase_iff.mp hx
    rcases hmoves.other x hne (hlive x hx) with hsame | ⟨hnil, c, hexecute⟩
    · rw [hsame]
    · rw [hnil, hexecute]
      rfl
  refine ⟨loopsIn rest ++ (l.erase s.running).flatMap fun x => loopsIn (s.stack x), ?_, ?_⟩
  · refine hloops.trans ((hperm.flatMap_right _).trans (.of_eq ?_))
    rw [List.flatMap_cons, hmoves.before, loopsIn_append, List.append_assoc]
  · refine hloops'.trans ((hperm.flatMap_right _).trans (.of_eq ?_))
    rw [List.flatMap_cons, hmoves.after, loopsIn_append, List.append_assoc,
      List.flatMap_congr hothers]

end BoostCoro.Coroutine
