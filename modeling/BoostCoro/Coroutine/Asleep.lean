import BoostCoro.Coroutine.ResumerChain
import BoostCoro.Coroutine.Spine
import BoostCoro.Coroutine.Stacks
/-!
# Coroutines that are asleep

A coroutine in a `yield` does nothing but the pass it makes there; once that pass
is over it is off the resumer chain, and stays off it until control is transferred
to it.
-/

namespace BoostCoro.Coroutine

variable {s s' : State} {a : Act} {evs : List Obs} {c q : CoroId} {chain : List CoroId}

/-! ## The stack of a coroutine -/

theorem EnterPass.mem_stack {coro : Option CoroId} (hpass : EnterPass s coro s' evs) {y : Ctx}
    {f : Frame} (hf : f ∈ s.stack y) : f ∈ s'.stack y := by
  cases hpass with
  | skip => exact hf
  | @enter cur _ _ =>
      show f ∈ (Sched.push (s.dropChld cur).toSched _).stack y
      rw [dropChld_toSched, Sched.push, setStack_stack]
      split
      next hy => exact List.mem_cons_of_mem _ (hy ▸ hf)
      next => exact hf

theorem mem_push (t : Sched) (f : Frame) : f ∈ (t.push f).stack t.running := by
  rw [Sched.push, setStack_stack, if_pos rfl]
  exact List.mem_cons_self

/-- User code, and the loop of `mget`, run outside every `yield`. -/
theorem SchedInv.yield_notMem {f : Frame} {rest : List Frame} (hinv : SchedInv s.toSched)
    (hrun : s.running = some q) (htop : s.stack s.running = f :: rest) (hf : f.isPass = false)
    (hne : f ≠ .yield q .childs) : .yield q .childs ∉ s.stack (some q) := by
  have hst : Stacked s.running (f :: rest) := htop ▸ hinv.stacked s.running
  rw [← hrun, htop]
  exact List.not_mem_cons_of_ne_of_not_mem hne.symm (hst.yield_top hf)

theorem yield_setStack {t : Sched} {f : Frame} {rest gs : List Frame}
    (htop : t.stack t.running = f :: rest) (hf : f ≠ .yield c .childs) (hrest : rest ⊆ gs)
    (h : .yield c .childs ∈ t.stack (some c)) :
    .yield c .childs ∈ (t.setStack gs).stack (some c) := by
  rw [setStack_stack]
  split
  next hrun =>
    rw [hrun, htop] at h
    exact hrest ((List.mem_cons.mp h).resolve_left fun heq => hf heq.symm)
  next => exact h

theorem mem_push_of_mem {t : Sched} {f g : Frame} {y : Ctx} (h : g ∈ t.stack y) :
    g ∈ (t.push f).stack y := by
  rw [Sched.push, setStack_stack]
  split
  next hy => exact List.mem_cons_of_mem _ (hy ▸ h)
  next => exact h

/-- A `yield` in its pass goes on until it hands control back. -/
theorem Effect.yields (hc : c ∈ s.pool) (heffect : Effect s a s' evs)
    (h : .yield c .childs ∈ s.stack (some c)) :
    .yield c .childs ∈ s'.stack (some c) ∨
      s.running = some c ∧ ∃ p, .handedBack p ∈ evs := by
  cases heffect with
  | resumeIdle htop => exact .inl (yield_setStack htop (by nofun) (List.Subset.refl _) h)
  | resumeStraight htop =>
      exact .inl (yield_setStack htop (by nofun) (List.subset_cons_self _ _) h)
  | resumePass htop _ _ _ hpass =>
      exact .inl (hpass.mem_stack (yield_setStack htop (by nofun) (List.subset_cons_self _ _) h))
  | resumeWaiting htop => exact .inl (yield_setStack htop (by nofun) (List.Subset.refl _) h)
  | @transfer d rest htop =>
      left
      have hkeep := yield_setStack htop (by nofun)
        (List.subset_cons_self (.resume s.running d .back) rest) h
      show .yield c .childs ∈ (Sched.switchTo _ d).stack (some c)
      rw [SchedInv.switchTo_stack, if_neg fun hnil => ?_]
      · exact hkeep
      · rw [← hnil.1] at hnil
        rw [hnil.2] at hkeep
        cases hkeep
  | resumeBack htop => exact .inl (yield_setStack htop (by nofun) (List.Subset.refl _) h)
  | passEnd htop => exact .inl (yield_setStack htop (by nofun) (List.Subset.refl _) h)
  | @passDestroy cur _ d childs _ htop =>
      exact .inl (yield_setStack (t := (s.toSched.setChilds cur childs).destroy d) htop
        (by nofun) (List.subset_cons_self _ _) h)
  | @passHold cur _ _ childs _ htop =>
      exact .inl (yield_setStack (t := s.toSched.setChilds cur childs) htop (by nofun)
        (fun _ hg => List.mem_cons_of_mem _ (List.mem_cons_of_mem _ hg)) h)
  | @passDrop _ _ d _ htop =>
      exact .inl (yield_setStack (t := s.toSched.destroy d) htop (by nofun)
        (List.subset_cons_self _ _) h)
  | @passKeep cur _ d _ htop =>
      exact .inl (yield_setStack (t := s.toSched.setChilds cur (s.coroChilds cur ++ [d])) htop
        (by nofun) (List.subset_cons_self _ _) h)
  | allEnd _ htop => exact .inl (yield_setStack htop (by nofun) (List.Subset.refl _) h)
  | allPass _ _ _ hpass => exact .inl (hpass.mem_stack h)
  | @yieldOut q _ hrun htop =>
      by_cases hqc : q = c
      · subst hqc
        exact .inr ⟨hrun, _, List.mem_cons_self⟩
      · exact .inl (yield_setStack htop (fun heq => hqc (Frame.yield.inj heq).1)
          (List.subset_cons_self _ _) h)
  | yieldBack _ htop => exact .inl (yield_setStack htop (by nofun) (List.Subset.refl _) h)
  | executeEntry _ htop => exact .inl (yield_setStack htop (by nofun) (List.nil_subset _) h)
  | executePass _ _ _ hpass => exact .inl (hpass.mem_stack h)
  | @finish d _ htop =>
      exact .inl (yield_setStack (t := s.toSched.setStat d coroStatDone) htop (by nofun)
        (List.nil_subset _) h)
  | @mgetSleep q _ _ _ _ _ _ hpass =>
      exact .inl (hpass.mem_stack (mem_push_of_mem (t := (s.startWait .msg q).toSched) h))
  | mgetTake _ htop => exact .inl (yield_setStack htop (by nofun) (List.Subset.refl _) h)
  | waitPersist htop => exact .inl (yield_setStack htop (by nofun) (List.Subset.refl _) h)
  | waitRelease htop => exact .inl (yield_setStack htop (by nofun) (List.Subset.refl _) h)
  | @create d _ _ hd =>
      have hne : c ≠ d := fun heq => hd (heq ▸ hc)
      have hkeep : (s.toSched.construct d).stack (some c) = s.stack (some c) :=
        Function.update_of_ne (fun heq => hne (Option.some.inj heq)) ..
      exact .inl (hkeep ▸ h)
  | child => exact .inl h
  | callResume => exact .inl (mem_push_of_mem h)
  | callResumeAll => exact .inl (mem_push_of_mem h)
  | callPass _ hpass => exact .inl (hpass.mem_stack h)
  | callYield _ _ hpass => exact .inl (hpass.mem_stack (mem_push_of_mem h))
  | bodyReturn _ htop => exact .inl (yield_setStack htop (by nofun) (List.nil_subset _) h)
  | callMget => exact .inl (mem_push_of_mem h)
  | @waitMain _ d =>
      exact .inl (mem_push_of_mem (t := (s.startWait .evet d).toSched) h)
  | @waitCoro _ d _ spec b _ _ _ _ _ _ _ hpass =>
      refine .inl (hpass.mem_stack ?_)
      have hfirst : .yield c .childs ∈
          ((s.startWait .evet d).push (.wait d spec b)).stack (some c) :=
        mem_push_of_mem (t := (s.startWait .evet d).toSched) h
      exact mem_push_of_mem hfirst
  | quiet _ hquiet =>
      rw [hquiet.sched]
      exact .inl h

/-- The last step of `execute`: the function of the running coroutine `c` has returned
and it has no children. -/
def Sched.Ending (s : Sched) (c : CoroId) : Prop :=
  s.running = some c ∧ s.stack (some c) = [.execute c .childs] ∧ s.coroChilds (some c) = []

/-- Only a coroutine whose last pass is over comes to DONE. -/
theorem Effect.alive (hc : c ∈ s.pool) (heffect : Effect s a s' evs)
    (hstat : s.stat c ≠ coroStatDone) (hbusy : ¬ s.Ending c) : s'.stat c ≠ coroStatDone := by
  have hpass : ∀ {t t' : State} {coro evs}, EnterPass t coro t' evs → t'.stat = t.stat := by
    intro t t' coro evs hpass
    rw [hpass.frame]
  cases heffect with
  | resumePass _ _ _ _ hp => rwa [hpass hp]
  | transfer =>
      show (Sched.switchTo _ _).stat c ≠ _
      rw [SchedInv.switchTo_stat]
      split
      · decide
      · split
        · decide
        · exact hstat
  | allPass _ _ _ hp => rwa [hpass hp]
  | yieldOut =>
      show (Sched.switchBack _ _).stat c ≠ _
      rw [SchedInv.switchBack_stat]
      split
      · decide
      · split
        · decide
        · exact hstat
  | executePass _ _ _ hp => rwa [hpass hp]
  | @finish q hrun htop hchilds =>
      have hne : c ≠ q := by
        rintro rfl
        exact hbusy ⟨hrun, hrun ▸ htop, hchilds⟩
      show (Sched.switchBack _ _).stat c ≠ _
      rw [SchedInv.switchBack_stat]
      split
      · decide
      · split
        · decide
        · show Function.update s.stat q coroStatDone c ≠ _
          rwa [Function.update_of_ne hne]
  | mgetSleep _ _ _ hp => rwa [hpass hp]
  | @create d _ _ hd =>
      have hne : c ≠ d := fun heq => hd (heq ▸ hc)
      show Function.update s.stat d coroStatInit c ≠ _
      rwa [Function.update_of_ne hne]
  | callPass _ hp => rwa [hpass hp]
  | callYield _ _ hp => rwa [hpass hp]
  | waitCoro _ _ _ _ hp => rwa [hpass hp]
  | quiet _ hquiet => rwa [hquiet.sched]
  | _ => exact hstat

/-- A coroutine that is not in DONE stays, and stays attached. -/
theorem Effect.stays (hc : c ∈ s.pool) (heffect : Effect s a s' evs)
    (hstat : s.stat c ≠ coroStatDone) :
    c ∈ s'.pool ∧ (s.attached c = true → s'.attached c = true) := by
  have hpass : ∀ {t t' : State} {coro evs}, EnterPass t coro t' evs →
      c ∈ t.pool ∧ (s.attached c = true → t.attached c = true) →
        c ∈ t'.pool ∧ (s.attached c = true → t'.attached c = true) := by
    intro t t' coro evs hpass h
    rw [hpass.frame]
    exact h
  have hself : c ∈ s.pool ∧ (s.attached c = true → s.attached c = true) := ⟨hc, id⟩
  cases heffect with
  | resumePass _ _ _ _ hp => exact hpass hp hself
  | @passDestroy _ _ d _ _ _ _ _ _ hdone =>
      have hne : c ≠ d := fun heq => hstat (heq ▸ hdone)
      exact ⟨(List.mem_erase_of_ne hne).mpr hc, id⟩
  | @passDrop _ _ d _ _ _ hdone =>
      have hne : c ≠ d := fun heq => hstat (heq ▸ hdone)
      exact ⟨(List.mem_erase_of_ne hne).mpr hc, id⟩
  | allPass _ _ _ hp => exact hpass hp hself
  | executePass _ _ _ hp => exact hpass hp hself
  | mgetSleep _ _ _ hp => exact hpass hp hself
  | @create d _ _ hd =>
      have hne : c ≠ d := fun heq => hd (heq ▸ hc)
      refine ⟨List.mem_cons_of_mem _ hc, fun h => ?_⟩
      show Function.update s.attached d false c = true
      rwa [Function.update_of_ne hne]
  | @child d =>
      refine ⟨hc, fun h => ?_⟩
      show Function.update s.attached d true c = true
      rw [Function.update_apply]
      split
      · rfl
      · exact h
  | callPass _ hp => exact hpass hp hself
  | callYield _ _ hp => exact hpass hp hself
  | waitCoro _ _ _ _ hp => exact hpass hp hself
  | quiet _ hquiet =>
      rw [hquiet.sched]
      exact hself
  | _ => exact hself

/-! ## Asleep -/

/-- Until control is transferred to `c`, it runs nothing but the pass of a `yield`. -/
structure Asleep (s : Sched) (c : CoroId) : Prop where
  live : c ∈ s.pool
  alive : s.stat c ≠ coroStatDone
  yields : c ∈ s.resumers → .yield c .childs ∈ s.stack (some c)

namespace Asleep

/-- A coroutine that is asleep and has control is in its `yield`. -/
theorem not_body (h : Asleep s.toSched c) (hchain : ResumerChain s.toSched chain)
    (hrun : s.running = some c) (hawake : .yield c .childs ∉ s.stack (some c)) : False := by
  refine hawake (h.yields ?_)
  have hmain := hchain.toMain
  rw [hrun] at hmain
  rw [hchain.resumers_eq]
  exact hmain.mem_start

theorem step (h : Asleep s.toSched c) (hinv : SchedInv s.toSched)
    (hchain : ResumerChain s.toSched chain) (hok : TransfersOffChain s a)
    (heffect : Effect s a s' evs) (hnot : .transferred c ∉ evs) : Asleep s'.toSched c := by
  constructor
  case live => exact (heffect.stays h.live h.alive).1
  case alive =>
    refine heffect.alive h.live h.alive fun ⟨hrun, htop, _⟩ => ?_
    refine h.not_body hchain hrun ?_
    rw [htop]
    simp
  case yields =>
    intro hin
    obtain ⟨chain', hstep⟩ := hchain.step hinv hok heffect
    rw [hstep.keeps.resumers_eq] at hin
    have hold : c ∈ s.resumers := by
      rw [hchain.resumers_eq]
      exact (hstep.enters c hin).resolve_right hnot
    rcases heffect.yields h.live (h.yields hold) with hyield | ⟨hrun, p, hback⟩
    · exact hyield
    · exact absurd hin (hstep.leaves p hback c hrun)

end Asleep

end BoostCoro.Coroutine
