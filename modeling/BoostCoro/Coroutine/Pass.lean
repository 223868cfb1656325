import BoostCoro.Coroutine.Asleep
import BoostCoro.Coroutine.Loops
import BoostCoro.Coroutine.Ownership
/-!
# One pass over a list of children

The list of a `resume_childs` is both the queue of the loop and its result, and the
children push onto it while they run. As long as nothing else is taken from it, the
children that were there when the pass began are visited once, in order; each is
resumed, or destroyed when it is in DONE.
-/

namespace BoostCoro.Coroutine

open Transition (Run)

/-! ## The pass and its turns -/

/-- The turns that are left, and the child that is held, when the running context `x`
is in the loop of the pass over `cur` that it entered on top of `rest`. -/
def Sched.passAt (s : Sched) (x cur : Ctx) (rest : List Frame) : Option (Nat × Option CoroId) :=
  match s.stack x with
  | .resumeChilds self owner loop child :: fs =>
    if s.running = x ∧ self = x ∧ owner = cur ∧ fs = rest then some (loop, child) else none
  | _ => none

/-- `cur->_coro_childs` only grows at its end. -/
def KeepsList (cur : Ctx) (s : State) (a : Act) : Prop :=
  match s.step a with
  | some (.ok (s', _)) => s.coroChilds cur <+: s'.coroChilds cur
  | _ => True

instance (cur : Ctx) (s : State) (a : Act) : Decidable (KeepsList cur s a) := by
  unfold KeepsList
  split <;> infer_instance

/-- The pass is not at its end, and nothing else takes a child from its list. -/
def Undisturbed (x cur : Ctx) (rest : List Frame) (s : State) (a : Act) : Prop :=
  s.passAt x cur rest ≠ some (0, none) ∧ (s.passAt x cur rest = none → KeepsList cur s a)

instance (x cur : Ctx) (rest : List Frame) (s : State) (a : Act) :
    Decidable (Undisturbed x cur rest s a) := inferInstanceAs (Decidable (_ ∧ (_ → _)))

/-- A step in the `resume` that the pass calls. -/
def Elsewhere (x cur : Ctx) (rest : List Frame) (s : State) (a : Act) : Prop :=
  s.passAt x cur rest = none ∧ KeepsList cur s a

/-- What one turn did. -/
structure Visit where
  child : CoroId
  /-- what was pushed on the list while `child` was held -/
  pushed : List CoroId
  /-- `child` was in DONE at the start of the turn or at its end -/
  done : Bool

/-- What a turn puts on the list. -/
def Visit.leaves (v : Visit) : List CoroId := v.pushed ++ if v.done then [] else [v.child]

section

variable (x cur : Ctx) (rest : List Frame)

/-- One turn of the pass: the first child of the list is destroyed, or `resume` is called
on it once, and it is destroyed or put back when that call returns. -/
inductive Turn (s : State) : Visit → List Obs → State → Prop
  | unresumed {loop : Nat} {c : CoroId} {s' : State}
      (hat : s.passAt x cur rest = some (loop + 1, none))
      (hfront : s.coroChilds cur = c :: s'.coroChilds cur) (hdone : s.stat c = coroStatDone)
      (hturn : s.step .lib = some (.ok (s', [.destroyed c])))
      (hnext : s'.passAt x cur rest = some (loop, none)) :
      Turn s ⟨c, [], true⟩ [.destroyed c] s'
  | resumed {loop : Nat} {c : CoroId} {s₁ s₂ s' : State} {pushed : List CoroId}
      {tr evs : List Obs} (hat : s.passAt x cur rest = some (loop + 1, none))
      (hfront : s.coroChilds cur = c :: s₁.coroChilds cur) (hdone : s.stat c ≠ coroStatDone)
      (hturn : s.step .lib = some (.ok (s₁, [])))
      (hcall : s₁.running = x ∧ s₁.stack x =
        .resume x c .entry :: .resumeChilds x cur loop (some c) :: rest)
      (hrun : Run State.step (Elsewhere x cur rest) s₁ tr s₂)
      (hback : s₂.passAt x cur rest = some (loop, some c))
      (hpushed : s₂.coroChilds cur = s₁.coroChilds cur ++ pushed)
      (hend : s₂.step .lib = some (.ok (s', evs)))
      (hevs : evs = if s₂.stat c = coroStatDone then [.destroyed c] else [])
      (hlist : s'.coroChilds cur = s₂.coroChilds cur ++
        if s₂.stat c = coroStatDone then [] else [c])
      (hnext : s'.passAt x cur rest = some (loop, none)) :
      Turn s ⟨c, pushed, s₂.stat c = coroStatDone⟩ (tr ++ evs) s'

/-- Turns one after another. -/
inductive Turns (s : State) : List Visit → List Obs → State → Prop
  | nil : Turns s [] [] s
  | snoc {vs : List Visit} {v : Visit} {tr evs : List Obs} {s' s'' : State}
      (h : Turns s vs tr s') (hturn : Turn x cur rest s' v evs s'') :
      Turns s (vs ++ [v]) (tr ++ evs) s''

end

variable {x cur : Ctx} {rest : List Frame} {s s' s₀ : State} {a : Act} {tr evs : List Obs}
  {vs : List Visit} {v : Visit} {loop : Nat} {child : Option CoroId}

theorem passAt_eq_some {t : Sched} : t.passAt x cur rest = some (loop, child) ↔
    t.running = x ∧ t.stack x = .resumeChilds x cur loop child :: rest := by
  unfold Sched.passAt
  split
  next self owner loop' child' fs hstack =>
    rw [hstack]
    constructor
    · intro h
      split at h
      next hsame =>
        obtain ⟨hrun, rfl, rfl, rfl⟩ := hsame
        obtain ⟨rfl, rfl⟩ := Prod.mk.inj (Option.some.inj h)
        exact ⟨hrun, rfl⟩
      next => cases h
    · rintro ⟨hrun, hframe⟩
      cases hframe
      exact if_pos ⟨hrun, rfl, rfl, rfl⟩
  next hother => exact ⟨nofun, fun h => absurd h.2 (hother _ _ _ _ _)⟩

/-- A call on top of the loop, or another context that runs. -/
theorem passAt_eq_none {t : Sched} {above : List Frame} {f : Frame}
    (hstack : t.stack x = f :: above ++ .resumeChilds x cur loop child :: rest) :
    t.passAt x cur rest = none := by
  cases hat : t.passAt x cur rest with
  | none => rfl
  | some p =>
      have hframe := (passAt_eq_some.mp hat).2.symm.trans hstack
      have hlen := congrArg List.length hframe
      simp only [List.length_cons, List.length_append] at hlen
      omega

/-! ## What the turns leave -/

namespace Turn

theorem counts (h : Turn x cur rest s v evs s') : ∃ loop,
    s.passAt x cur rest = some (loop + 1, none) ∧ s'.passAt x cur rest = some (loop, none) := by
  cases h with
  | unresumed hat _ _ _ hnext => exact ⟨_, hat, hnext⟩
  | resumed hat _ _ _ _ _ _ _ _ _ _ hnext => exact ⟨_, hat, hnext⟩

theorem list (h : Turn x cur rest s v evs s') : ∃ childs,
    s.coroChilds cur = v.child :: childs ∧ s'.coroChilds cur = childs ++ v.leaves := by
  cases h with
  | unresumed _ hfront => exact ⟨_, hfront, (List.append_nil _).symm⟩
  | resumed _ hfront _ _ _ _ _ hpushed _ _ hlist =>
      refine ⟨_, hfront, ?_⟩
      rw [hlist, hpushed, Visit.leaves, List.append_assoc]
      simp only [decide_eq_true_eq]

theorem destroyed (h : Turn x cur rest s v evs s') (hdone : v.done = true) :
    .destroyed v.child ∈ evs := by
  cases h with
  | unresumed => exact List.mem_singleton_self _
  | resumed _ _ _ _ _ _ _ _ _ hevs =>
      rw [hevs, if_pos (of_decide_eq_true hdone)]
      exact List.mem_append_right _ (List.mem_singleton_self _)

end Turn

namespace Turns

theorem counts {n : Nat} (h : Turns x cur rest s vs tr s')
    (hat : s.passAt x cur rest = some (n, none)) :
    ∃ k, s'.passAt x cur rest = some (k, none) ∧ vs.length + k = n := by
  induction h with
  | nil => exact ⟨n, hat, Nat.zero_add n⟩
  | snoc _ hturn ih =>
      obtain ⟨k, hk, hsum⟩ := ih
      obtain ⟨loop, hloop, hnext⟩ := hturn.counts
      rw [hk] at hloop
      cases hloop
      exact ⟨loop, hnext, by simp only [List.length_append, List.length_singleton]; omega⟩

/-- The list is what has not been visited, followed by what the turns left. -/
theorem list (h : Turns x cur rest s vs tr s') (hlen : vs.length ≤ (s.coroChilds cur).length) :
    vs.map Visit.child = (s.coroChilds cur).take vs.length ∧
      s'.coroChilds cur = (s.coroChilds cur).drop vs.length ++ vs.flatMap Visit.leaves := by
  induction h with
  | nil => exact ⟨rfl, (List.append_nil _).symm⟩
  | @snoc vs v _ _ s' s'' _ hturn ih =>
      rw [List.length_append, List.length_singleton] at hlen ⊢
      obtain ⟨htake, hlist⟩ := ih (by omega)
      obtain ⟨childs, hfront, hleft⟩ := hturn.list
      have hdrop := List.drop_eq_getElem_cons (l := s.coroChilds cur) (i := vs.length) (by omega)
      rw [hlist, hdrop, List.cons_append] at hfront
      obtain ⟨hchild, hchilds⟩ := List.cons.inj hfront
      constructor
      · rw [List.map_append, htake, List.take_succ_eq_append_getElem (by omega), hchild]
        rfl
      · rw [hleft, ← hchilds, List.flatMap_append, List.append_assoc, List.flatMap_singleton]

theorem destroyed (h : Turns x cur rest s vs tr s') (hv : v ∈ vs) (hdone : v.done = true) :
    .destroyed v.child ∈ tr := by
  induction h with
  | nil => cases hv
  | snoc _ hturn ih =>
      rcases List.mem_append.mp hv with hv | hv
      · exact List.mem_append_left _ (ih hv)
      · obtain rfl := List.mem_singleton.mp hv
        exact List.mem_append_right _ (hturn.destroyed hdone)

end Turns

/-! ## The steps of a pass -/

/-- In the loop no user code runs. -/
theorem step_of_passAt (hat : s.passAt x cur rest = some (loop, child))
    (hstep : s.step a = some (.ok (s', evs))) :
    a = .lib ∧ s.stepFrame rest (.resumeChilds x cur loop child) = .ok (s', evs) := by
  obtain ⟨hrun, hstack⟩ := passAt_eq_some.mp hat
  rw [← hrun] at hstack ⊢
  obtain rfl := State.act_eq_lib hstack nofun hstep
  exact ⟨rfl, Option.some.inj ((State.step_lib_eq hstack nofun).symm.trans hstep)⟩

/-- A context with a pass in progress is not in DONE, and so it is not destroyed. -/
theorem SchedInv.ownerLive_step (hinv : SchedInv s.toSched) (heffect : Effect s a s' evs)
    (hlive : s.OwnerLive x) (hpass : .resumeChilds x cur loop child ∈ s.stack x) :
    s'.OwnerLive x := by
  rintro d rfl
  have hd := hlive d rfl
  have hdone : s.stat d ≠ coroStatDone := fun hdone => by
    rw [hinv.finished d hd hdone] at hpass
    cases List.mem_singleton.mp hpass
  exact (heffect.stays hd hdone).1

/-- A loop that is not at the top of its stack stays where it is. -/
theorem SchedInv.loop_step (hinv : SchedInv s.toSched) (heffect : Effect s a s' evs)
    (hlive : s.OwnerLive x) {above : List Frame}
    (hstack : s.stack x = above ++ .resumeChilds x cur loop child :: rest)
    (hat : s.passAt x cur rest = none) :
    ∃ above', s'.stack x = above' ++ .resumeChilds x cur loop child :: rest := by
  obtain ⟨old, new, fs, hmoves, -⟩ := heffect.moves hinv
  by_cases hx : x = s.running
  · subst hx
    have hbefore := hstack.symm.trans hmoves.before
    rcases above with _ | ⟨f, above⟩
    · rw [passAt_eq_some.mpr ⟨rfl, hstack⟩] at hat
      cases hat
    · have hold := hmoves.old_le
      rcases old with _ | ⟨g, old⟩
      · refine ⟨new ++ f :: above, ?_⟩
        rw [hmoves.after, ← hmoves.before.trans (List.nil_append _), hstack, List.append_assoc]
      · obtain rfl : old = [] := List.eq_nil_of_length_eq_zero (Nat.le_zero.mp
          (Nat.le_of_succ_le_succ hold))
        obtain ⟨_, htail⟩ := List.cons.inj hbefore
        refine ⟨new ++ above, ?_⟩
        rw [hmoves.after, List.append_assoc]
        exact congrArg _ htail.symm
  · rcases hmoves.other x hx hlive with hsame | ⟨hnil, -⟩
    · exact ⟨above, hsame.trans hstack⟩
    · rw [hstack] at hnil
      simp at hnil

/-- Where a pass stands: between two turns, or in the `resume` of a child. -/
inductive Phase (x cur : Ctx) (rest : List Frame) (s₀ : State) : List Obs → State → Prop
  | between {vs : List Visit} {tr : List Obs} {s : State} {loop : Nat}
      (hturns : Turns x cur rest s₀ vs tr s) (hat : s.passAt x cur rest = some (loop, none)) :
      Phase x cur rest s₀ tr s
  | during {vs : List Visit} {tr tr' : List Obs} {s s₁ s₂ : State} {loop : Nat} {c : CoroId}
      {above : List Frame} (hturns : Turns x cur rest s₀ vs tr s₁)
      (hat : s₁.passAt x cur rest = some (loop + 1, none))
      (hfront : s₁.coroChilds cur = c :: s₂.coroChilds cur) (hdone : s₁.stat c ≠ coroStatDone)
      (hturn : s₁.step .lib = some (.ok (s₂, [])))
      (hcall : s₂.running = x ∧ s₂.stack x =
        .resume x c .entry :: .resumeChilds x cur loop (some c) :: rest)
      (hrun : Run State.step (Elsewhere x cur rest) s₂ tr' s)
      (hlive : s.OwnerLive x)
      (hstack : s.stack x = above ++ .resumeChilds x cur loop (some c) :: rest)
      (hgrown : s₂.coroChilds cur <+: s.coroChilds cur) :
      Phase x cur rest s₀ (tr ++ tr') s

namespace Phase

/-- The start of a turn. -/
theorem turn (hinv : SchedInv s.toSched) (hturns : Turns x cur rest s₀ vs tr s)
    (hat : s.passAt x cur rest = some (loop, none)) (hok : Undisturbed x cur rest s a)
    (hstep : s.step a = some (.ok (s', evs))) : Phase x cur rest s₀ (tr ++ evs) s' := by
  obtain ⟨hrun, hstack⟩ := passAt_eq_some.mp hat
  obtain ⟨rfl, hframe⟩ := step_of_passAt hat hstep
  rcases loop with _ | loop
  · exact absurd hat hok.1
  · have hframe : s.passTurn x cur (loop + 1) rest = .ok (s', evs) := hframe
    obtain ⟨c, childs, -, hchilds, -, ⟨hdone, rfl, rfl⟩ | ⟨hdone, rfl, rfl⟩⟩ :=
      passTurn_ok hframe
    · have hlist : (s.setChilds cur childs).coroChilds cur = childs := Function.update_self ..
      have hnext : (((s.setChilds cur childs).destroy c).setStack
          (.resumeChilds x cur loop none :: rest)).passAt x cur rest = some (loop, none) := by
        refine passAt_eq_some.mpr ⟨hrun, ?_⟩
        rw [← hrun]
        exact Function.update_self ..
      refine .between (hturns.snoc (.unresumed hat ?_ hdone hstep hnext)) hnext
      exact hchilds.trans (congrArg _ hlist.symm)
    · have hlist : (s.setChilds cur childs).coroChilds cur = childs := Function.update_self ..
      have hdispatch : s.dispatch x = x := hrun ▸ hinv.dispatch
      have hcall : ((s.setChilds cur childs).setStack (.resume (s.dispatch x) c .entry ::
          .resumeChilds x cur loop (some c) :: rest)).stack x =
          .resume x c .entry :: .resumeChilds x cur loop (some c) :: rest := by
        rw [hdispatch, ← hrun]
        exact Function.update_self ..
      refine .during hturns hat ?_ hdone hstep ⟨hrun, hcall⟩ .refl ?_
        (show _ = [_] ++ _ from hcall) (List.prefix_refl _)
      · exact hchilds.trans (congrArg _ hlist.symm)
      · exact fun d hd => hinv.live d (hrun.trans hd)

/-- The end of a turn. -/
theorem back {tr' : List Obs} {s₁ s₂ : State} {c : CoroId}
    (hturns : Turns x cur rest s₀ vs tr s₁)
    (hat : s₁.passAt x cur rest = some (loop + 1, none))
    (hfront : s₁.coroChilds cur = c :: s₂.coroChilds cur) (hdone : s₁.stat c ≠ coroStatDone)
    (hturn : s₁.step .lib = some (.ok (s₂, [])))
    (hcall : s₂.running = x ∧ s₂.stack x =
      .resume x c .entry :: .resumeChilds x cur loop (some c) :: rest)
    (hrun : Run State.step (Elsewhere x cur rest) s₂ tr' s)
    (hgrown : s₂.coroChilds cur <+: s.coroChilds cur)
    (hback : s.passAt x cur rest = some (loop, some c))
    (hstep : s.step a = some (.ok (s', evs))) :
    Phase x cur rest s₀ (tr ++ tr' ++ evs) s' := by
  obtain ⟨rfl, hframe⟩ := step_of_passAt hback hstep
  have hrunning := (passAt_eq_some.mp hback).1
  obtain ⟨pushed, hpushed⟩ := hgrown
  have hnext : ∀ t : State, t.running = s.running →
      (t.setStack (.resumeChilds x cur loop none :: rest)).passAt x cur rest =
        some (loop, none) := by
    intro t ht
    refine passAt_eq_some.mpr ⟨ht.trans hrunning, ?_⟩
    rw [← hrunning, ← ht]
    exact Function.update_self ..
  rw [List.append_assoc]
  obtain ⟨-, ⟨hend, rfl, rfl⟩ | ⟨hend, -, rfl, rfl⟩⟩ := passBack_ok hframe
  · have hnext := hnext (s.destroy c) rfl
    refine .between (hturns.snoc (.resumed hat hfront hdone hturn hcall hrun hback hpushed.symm
      hstep (if_pos hend).symm ?_ hnext)) hnext
    rw [if_pos hend]
    exact (List.append_nil _).symm
  · have hnext := hnext (s.setChilds cur (s.coroChilds cur ++ [c])) rfl
    refine .between (hturns.snoc (.resumed hat hfront hdone hturn hcall hrun hback hpushed.symm
      hstep (if_neg hend).symm ?_ hnext)) hnext
    rw [if_neg hend]
    exact Function.update_self ..

theorem step (h : Phase x cur rest s₀ tr s) (hinv : SchedInv s.toSched)
    (hok : Undisturbed x cur rest s a) (hstep : s.step a = some (.ok (s', evs))) :
    Phase x cur rest s₀ (tr ++ evs) s' := by
  cases h with
  | between hturns hat => exact turn hinv hturns hat hok hstep
  | @during _ _ _ _ s₁ s₂ loop c above hturns hat hfront hdone hturn hcall hrun hlive hstack
      hgrown =>
      have heffect := hinv.effect hstep
      cases hhere : s.passAt x cur rest with
      | none =>
          obtain ⟨above', hstack'⟩ := hinv.loop_step heffect hlive hstack hhere
          have hkeeps := hok.2 hhere
          have hmem : .resumeChilds x cur loop (some c) ∈ s.stack x := by
            rw [hstack]
            exact List.mem_append_right _ List.mem_cons_self
          have hlive' := hinv.ownerLive_step heffect hlive hmem
          have hmore : s.coroChilds cur <+: s'.coroChilds cur := by
            unfold KeepsList at hkeeps
            rwa [hstep] at hkeeps
          rw [List.append_assoc]
          exact .during hturns hat hfront hdone hturn hcall
            (hrun.snoc ⟨hhere, hkeeps⟩ hstep) hlive' hstack' (hgrown.trans hmore)
      | some p =>
          cases above with
          | nil =>
              have hback := passAt_eq_some.mpr ⟨(passAt_eq_some.mp hhere).1, hstack⟩
              exact back hturns hat hfront hdone hturn hcall hrun hgrown hback hstep
          | cons f above =>
              rw [passAt_eq_none hstack] at hhere
              cases hhere

end Phase

/-! ## The pass visits each child once -/

/-- One pass, from its first turn to a state with `k` turns left; with none left all
children of the list have been visited. -/
theorem pass_visits_once {tr₀ : List Obs} {k : Nat} (h : RunOf AnyUse tr₀ s₀)
    (hbegin : s₀.passAt x cur rest = some ((s₀.coroChilds cur).length, none))
    (hrun : Run State.step (Undisturbed x cur rest) s₀ tr s)
    (hat : s.passAt x cur rest = some (k, none)) :
    ∃ vs, Turns x cur rest s₀ vs tr s ∧
      vs.map Visit.child = (s₀.coroChilds cur).take ((s₀.coroChilds cur).length - k) ∧
      s.coroChilds cur = (s₀.coroChilds cur).drop ((s₀.coroChilds cur).length - k) ++
        vs.flatMap Visit.leaves ∧
      ∀ v ∈ vs, v.done = true → .constructed v.child ∉ tr →
        tr.count (.destroyed v.child) = 1 := by
  obtain ⟨-, hphase⟩ := hrun.invariant_trace
    (I := fun tr s => SchedInv s.toSched ∧ Phase x cur rest s₀ tr s)
    (fun _ _ _ _ _ hinv hok hstep =>
      ⟨hinv.1.step (hinv.1.effect hstep), hinv.2.step hinv.1 hok hstep⟩)
    ⟨h.schedInv, .between .nil hbegin⟩
  cases hphase with
  | @between vs _ _ loop hturns =>
      obtain ⟨k', hk', hcount⟩ := hturns.counts hbegin
      obtain ⟨rfl, -⟩ := Prod.mk.inj (Option.some.inj (hat.symm.trans hk'))
      obtain ⟨hchilds, hlist⟩ := hturns.list (by omega)
      have hlen : vs.length = (s₀.coroChilds cur).length - k := by omega
      rw [← hlen]
      refine ⟨vs, hturns, hchilds, hlist, fun v hv hdone hold => ?_⟩
      have honce := RunOf.destroyed_once (h.trans (hrun.mono fun _ _ _ => trivial)) v.child
      rw [lifetime_append _ _ hold, List.count_append] at honce
      have hpos := List.count_pos_iff.mpr (hturns.destroyed hv hdone)
      omega
  | @during _ _ _ _ _ _ _ _ above _ _ _ _ _ _ _ _ hstack =>
      cases above with
      | nil =>
          rw [passAt_eq_some.mpr ⟨(passAt_eq_some.mp hat).1, hstack⟩] at hat
          cases hat
      | cons f above =>
          rw [passAt_eq_none hstack] at hat
          cases hat

/-- Main is in a pass over two coroutines. -/
def passBegins : State :=
  (Transition.after State.step AnyUse State.init [.user (.create 0 0), .user (.create 1 0),
    .user (.child 0), .user (.child 1), .user (.resumeChilds none)]).1

/-- The first coroutine returns and the second yields. -/
def passActs : List Act :=
  [.lib, .lib, .lib, .lib, .user .return, .lib, .lib, .lib,
    .lib, .lib, .lib, .lib, .user .yield, .lib, .lib, .lib, .lib]

theorem pass_visits_once_two : ∃ vs tr s, Turns none none [] passBegins vs tr s ∧
    vs.map Visit.child = [0, 1] ∧ s.coroChilds none = vs.flatMap Visit.leaves := by
  have hbegin : RunOf AnyUse _ passBegins := Transition.run_after (by decide +kernel)
  have hrun : Run State.step (Undisturbed none none []) passBegins _
      (Transition.after State.step (Undisturbed none none []) passBegins passActs).1 :=
    Transition.run_after (by decide +kernel)
  obtain ⟨vs, hturns, hchilds, hlist, -⟩ := pass_visits_once (k := 0) hbegin (by decide +kernel)
    hrun (by decide +kernel)
  exact ⟨vs, _, _, hturns, hchilds, hlist⟩

end BoostCoro.Coroutine
