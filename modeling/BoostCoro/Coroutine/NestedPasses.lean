import BoostCoro.Coroutine.Pass
/-!
# Nested passes over one list

A pass reads the length of the list once, at its start. Another pass over the same
list that runs before it ends takes children away for a while, and for good when it
destroys them. As long as a pass that destroys a child is the only one over its list,
no pass finds that list empty.
-/

namespace BoostCoro.Coroutine

/-! ## Passes over a list -/

namespace Frame

/-- The loop of a pass over the list of `cur`. -/
def isLoopOver (cur : Ctx) : Frame → Bool
  | resumeChilds _ owner _ _ => owner = cur
  | _ => false

/-- The loop of a pass over the list of `cur` that holds a child. -/
def holdsOf (cur : Ctx) : Frame → Bool
  | resumeChilds _ owner _ (some _) => owner = cur
  | _ => false

/-- The children that a loop holds or has still to take. -/
def owes : Frame → Nat
  | resumeChilds _ _ loop none => loop
  | resumeChilds _ _ loop (some _) => loop + 1
  | _ => 0

theorem isLoopOver_self {self cur : Ctx} {loop : Nat} {child : Option CoroId} :
    (resumeChilds self cur loop child).isLoopOver cur = true := decide_eq_true rfl

theorem isLoopOver_of_holdsOf {cur : Ctx} {f : Frame} (h : f.holdsOf cur = true) :
    f.isLoopOver cur = true := by
  cases f with
  | resumeChilds _ _ _ child =>
      cases child with
      | none => cases h
      | some d => exact h
  | _ => cases h

theorem countP_holdsOf_cons {self cur : Ctx} {loop : Nat} {child : Option CoroId}
    {R : List Frame} : (resumeChilds self cur loop child :: R).countP (holdsOf cur) =
      R.countP (holdsOf cur) + child.toList.length := by
  cases child with
  | none => exact List.countP_cons_of_neg Bool.false_ne_true
  | some d => exact List.countP_cons_of_pos (decide_eq_true rfl)

end Frame

namespace Sched

/-- The number of passes in progress over the list of `cur`. -/
def loopsOver (s : Sched) (cur : Ctx) : Nat := s.loops.countP (Frame.isLoopOver cur)

/-- The number of children of `cur` that passes hold. -/
def heldOf (s : Sched) (cur : Ctx) : Nat := s.loops.countP (Frame.holdsOf cur)

/-- The child that the next step destroys, after the owner of the list it was on. -/
def victim (s : Sched) : Option (Ctx × CoroId) :=
  match s.stack s.running with
  | .resumeChilds _ cur (_ + 1) none :: _ =>
    match s.coroChilds cur with
    | child :: _ => if s.stat child = coroStatDone then some (cur, child) else none
    | [] => none
  | .resumeChilds _ cur _ (some child) :: _ =>
    if s.stat child = coroStatDone then some (cur, child) else none
  | _ => none

end Sched

/-- A pass destroys a child only when it is the one pass in progress over its list and
there is none over the list of that child. -/
def DestroysAlone (s : State) (_ : Act) : Prop :=
  match s.victim with
  | some (cur, child) => s.loopsOver cur = 1 ∧ s.loopsOver (some child) = 0
  | none => True

instance (s : State) (a : Act) : Decidable (DestroysAlone s a) := by
  unfold DestroysAlone
  split <;> infer_instance

/-! ## No pass has more turns than children -/

/-- Every loop in progress has children for all its turns, and the next turn of the
running context has one on the list. -/
structure Supplied (s : Sched) : Prop where
  owner : ∀ cur f, f ∈ s.loops → f.isLoopOver cur = true → s.OwnerLive cur
  enough : ∀ cur f, f ∈ s.loops → f.isLoopOver cur = true →
    f.owes ≤ (s.coroChilds cur).length + s.heldOf cur
  front : ∀ self cur loop rest, s.stack s.running = .resumeChilds self cur (loop + 1) none :: rest →
    s.coroChilds cur ≠ []

theorem supplied_init : Supplied Sched.init where
  owner := fun _ _ hf => absurd hf List.not_mem_nil
  enough := fun _ _ hf => absurd hf List.not_mem_nil
  front := fun _ _ _ _ h => nomatch h

variable {s s' : State} {a : Act} {tr evs : List Obs} {x cur : Ctx} {c : CoroId}
  {loop : Nat} {child : Option CoroId} {rest old new : List Frame}

/-- Only the loops of passes take children away or destroy them. -/
theorem Effect.keeps_lists (heffect : Effect s a s' evs)
    (hloop : ∀ f rest, s.stack s.running = f :: rest → f.isLoop = false) :
    (∀ c ∈ s.pool, c ∈ s'.pool) ∧
      ∀ cur, s.OwnerLive cur → (s.coroChilds cur).length ≤ (s'.coroChilds cur).length := by
  have hpass : ∀ {t : State} {coro evs}, EnterPass t coro s' evs → t.pool = s.pool →
      t.coroChilds = s.coroChilds → (∀ c ∈ s.pool, c ∈ s'.pool) ∧
        ∀ cur, s.OwnerLive cur → (s.coroChilds cur).length ≤ (s'.coroChilds cur).length := by
    intro t coro evs hpass hpool hchilds
    rw [hpass.frame, ← hpool, ← hchilds]
    exact ⟨fun _ h => h, fun _ _ => Nat.le_refl _⟩
  cases heffect with
  | resumePass _ _ _ _ hp => exact hpass hp rfl rfl
  | passEnd htop => cases hloop _ _ htop
  | passDestroy htop => cases hloop _ _ htop
  | passHold htop => cases hloop _ _ htop
  | passDrop htop => cases hloop _ _ htop
  | passKeep htop => cases hloop _ _ htop
  | allPass _ _ _ hp => exact hpass hp rfl rfl
  | executePass _ _ _ hp => exact hpass hp rfl rfl
  | mgetSleep _ _ _ hp => exact hpass hp rfl rfl
  | @create c _ _ hc =>
      refine ⟨fun _ h => List.mem_cons_of_mem _ h, fun cur hlive => ?_⟩
      have hne : cur ≠ some c := fun h => hc (hlive c h)
      exact Nat.le_of_eq (congrArg List.length (Function.update_of_ne hne ..).symm)
  | @child c =>
      refine ⟨fun _ h => h, fun cur _ => ?_⟩
      show _ ≤ (Function.update s.coroChilds s.running _ cur).length
      by_cases hcur : cur = s.running
      · rw [hcur, Function.update_self, List.length_append]
        omega
      · exact Nat.le_of_eq (congrArg List.length (Function.update_of_ne hcur ..).symm)
  | callPass _ hp => exact hpass hp rfl rfl
  | callYield _ _ hp => exact hpass hp rfl rfl
  | waitCoro _ _ _ _ hp => exact hpass hp rfl rfl
  | quiet _ hquiet =>
      rw [hquiet.sched]
      exact ⟨fun _ h => h, fun _ _ => Nat.le_refl _⟩
  | _ => exact ⟨fun _ h => h, fun _ _ => Nat.le_refl _⟩

/-! ### Steps outside the loops -/

/-- A loop that holds no child calls nothing. -/
theorem Stacked.not_on_turn {self : Ctx} {f : Frame}
    (h : Stacked x (f :: .resumeChilds self cur loop none :: rest)) : False := by
  have hcall : Frame.mayCall (.resumeChilds self cur loop none) f := h.calledBy
  cases f <;> exact hcall

/-- A context with a loop at the top of its stack is running. -/
theorem SchedInv.running_of_loop {t : Sched} (hinv : SchedInv t) (hlive : t.OwnerLive x)
    {f : Frame} (hstack : t.stack x = f :: rest) (hf : f.isLoop = true) : t.running = x := by
  by_contra hne
  cases x with
  | none =>
      obtain ⟨d, fs, hmain⟩ := hinv.mainParked hne
      rw [hmain] at hstack
      cases hstack
      cases hf
  | some p =>
      have hp := hlive p rfl
      rcases hinv.stat p hp with hstat | hstat | hstat | hstat
      · rw [(hinv.fresh p hp).mp hstat] at hstack
        cases hstack
      · obtain ⟨g, fs, hparked, haway⟩ := hinv.parked p hp hstat
        rw [hparked] at hstack
        cases hstack
        cases f <;> first | cases haway | cases hf
      · exact hne ((hinv.busy p hp).mp hstat)
      · rw [hinv.finished p hp hstat] at hstack
        cases hstack
        cases hf

/-- A context to which control is switched is not in a loop. -/
theorem Moves.running_eq (hmoves : Moves s s' old new rest) (hinv : SchedInv s.toSched)
    (hinv' : SchedInv s'.toSched) (heffect : Effect s a s' evs) {f : Frame} {fs : List Frame}
    (htop : s'.stack s'.running = f :: fs) (hf : f.isLoop = true) : s'.running = s.running := by
  by_contra hne
  have hlive : s.OwnerLive s'.running := by
    intro d hd
    have hin := hinv'.live d hd
    rcases heffect.pool_cases with hpool | ⟨c, -, hpool, hstack⟩ | ⟨c, -, -, hpool⟩
    · rwa [hpool] at hin
    · rw [hpool] at hin
      rcases List.mem_cons.mp hin with rfl | hin
      · rw [hd, hstack] at htop
        cases htop
      · exact hin
    · rw [hpool] at hin
      exact List.mem_of_mem_erase hin
  rcases hmoves.other _ hne hlive with hsame | ⟨-, c, hexecute⟩
  · exact hne (hinv.running_of_loop hlive (hsame.symm.trans htop) hf).symm
  · rw [hexecute] at htop
    cases htop
    cases hf

/-- A loop is at the top after a step only if it was entered in that step. -/
theorem LoopMove.top_entered (hkind : LoopMove s old new) (hmoves : Moves s s' old new rest)
    (hinv : SchedInv s.toSched) {self : Ctx} {fs : List Frame}
    (hloop : ∀ f rest, s.stack s.running = f :: rest → f.isLoop = false)
    (htop : s'.stack s.running = .resumeChilds self cur loop none :: fs) :
    loop = (s.coroChilds cur).length ∧ s.OwnerLive cur := by
  have hold : loopsIn old = [] := by
    rcases old with _ | ⟨f, old⟩
    · rfl
    · obtain rfl := List.eq_nil_of_length_eq_zero (Nat.le_zero.mp
        (Nat.le_of_succ_le_succ hmoves.old_le))
      exact List.filter_cons_of_neg (by rw [hloop f rest hmoves.before]; decide)
  have hafter := hmoves.after.symm.trans htop
  rcases new with _ | ⟨g, new⟩
  · exfalso
    have hbefore := hmoves.before
    rw [show rest = _ from hafter] at hbefore
    rcases old with _ | ⟨f, old⟩
    · cases hloop _ _ hbefore
    · have hst := hinv.stacked s.running
      obtain rfl := List.eq_nil_of_length_eq_zero (Nat.le_zero.mp
        (Nat.le_of_succ_le_succ hmoves.old_le))
      rw [hbefore] at hst
      exact hst.not_on_turn
  · obtain ⟨rfl, -⟩ := List.cons.inj hafter
    have hnew : loopsIn (.resumeChilds self cur loop none :: new) =
        .resumeChilds self cur loop none :: loopsIn new := rfl
    cases hkind with
    | same h =>
        rw [hnew, hold] at h
        cases h
    | enter hlive h =>
        rw [hnew, hold] at h
        obtain ⟨hframe, -⟩ := List.cons.inj h
        cases hframe
        exact ⟨rfl, hlive⟩
    | own h =>
        rw [h] at hold
        cases hold

/-- The loop at the top of the stack makes way for the frames `new`. -/
theorem SchedInv.loops_perm (hinv : SchedInv s.toSched) (heffect : Effect s a s' evs) {t : Sched}
    {f : Frame} (new : List Frame) (hf : f.isLoop = true) (htop : s.stack s.running = f :: rest)
    (hrun : t.running = s.running) (hstack : t.stack = s.stack)
    (hs' : s'.stack = (t.setStack (new ++ rest)).stack) :
    ∃ R, s.loops.Perm (f :: R) ∧ s'.loops.Perm (loopsIn new ++ R) := by
  have hmoves : Moves s s' [f] new rest := .of_setStack hrun hstack htop (Nat.le_refl 1) hs'
  obtain ⟨R, hR, hR'⟩ := hmoves.loops_perm heffect hinv
  rw [show loopsIn [f] = [f] from List.filter_cons_of_pos hf] at hR
  exact ⟨R, hR, hR'⟩

namespace Supplied

theorem elsewhere (h : Supplied s.toSched) (hinv : SchedInv s.toSched)
    (hinv' : SchedInv s'.toSched) (heffect : Effect s a s' evs)
    (hloop : ∀ f rest, s.stack s.running = f :: rest → f.isLoop = false) :
    Supplied s'.toSched := by
  obtain ⟨hpool, hlists⟩ := heffect.keeps_lists hloop
  obtain ⟨old, new, rest, hmoves, hkind⟩ := heffect.moves hinv
  obtain ⟨R, hR, hR'⟩ := hmoves.loops_perm heffect hinv
  have hlive : ∀ cur, s.OwnerLive cur → s'.OwnerLive cur := fun cur h d hd => hpool d (h d hd)
  have hfront : ∀ self cur loop rest,
      s'.stack s'.running = .resumeChilds self cur (loop + 1) none :: rest →
        s'.coroChilds cur ≠ [] := by
    intro self cur loop fs htop
    have hrun : s'.running = s.running :=
      hmoves.running_eq hinv hinv' heffect htop rfl
    rw [hrun] at htop
    obtain ⟨hlen, hcur⟩ := hkind.top_entered hmoves hinv hloop htop
    have hle := hlists cur hcur
    intro hnil
    rw [hnil, ← hlen] at hle
    cases hle
  cases hkind with
  | same hsame =>
      have hperm : s'.loops.Perm s.loops := (hsame ▸ hR').trans hR.symm
      refine ⟨fun cur f hf hover => ?_, fun cur f hf hover => ?_, hfront⟩
      · exact hlive cur (h.owner cur f (hperm.mem_iff.mp hf) hover)
      · have hin := hperm.mem_iff.mp hf
        have hle := hlists cur (h.owner cur f hin hover)
        have henough := h.enough cur f hin hover
        have hheld : s'.heldOf cur = s.heldOf cur := hperm.countP_eq _
        omega
  | @enter cur hcur hsame =>
      have hperm : s'.loops.Perm
          (.resumeChilds s.running cur (s.coroChilds cur).length none :: s.loops) := by
        refine hR'.trans ?_
        rw [hsame]
        exact hR.symm.cons _
      have hheld : ∀ owner, s'.heldOf owner = s.heldOf owner := fun owner =>
        (hperm.countP_eq _).trans (List.countP_cons_of_neg Bool.false_ne_true)
      refine ⟨fun owner f hf hover => ?_, fun owner f hf hover => ?_, hfront⟩
      · rcases List.mem_cons.mp (hperm.mem_iff.mp hf) with rfl | hin
        · obtain rfl : cur = owner := of_decide_eq_true hover
          exact hlive cur hcur
        · exact hlive owner (h.owner owner f hin hover)
      · rw [hheld]
        rcases List.mem_cons.mp (hperm.mem_iff.mp hf) with rfl | hin
        · obtain rfl : cur = owner := of_decide_eq_true hover
          exact Nat.le_add_right_of_le (hlists cur hcur)
        · have hle := hlists owner (h.owner owner f hin hover)
          have henough := h.enough owner f hin hover
          omega
  | own hold => cases hloop _ _ (hmoves.before.trans (congrArg (· ++ rest) hold))

/-! ### Turns -/

/-- The loop `f` over the list of `cur` becomes `g`. -/
theorem replace {t t' : Sched} (h : Supplied t) {f g : Frame} {R : List Frame}
    (hR : t.loops.Perm (f :: R)) (hR' : t'.loops.Perm (g :: R))
    (hf : ∀ owner, f.isLoopOver owner = decide (cur = owner))
    (hg : ∀ owner, g.isLoopOver owner = decide (cur = owner))
    (hlive : ∀ owner, t.OwnerLive owner → (∃ f' ∈ f :: R, f'.isLoopOver owner = true) →
      t'.OwnerLive owner)
    (hother : ∀ owner, owner ≠ cur → t'.coroChilds owner = t.coroChilds owner)
    (hbalance : g.owes + ((t.coroChilds cur).length + t.heldOf cur) ≤
      f.owes + ((t'.coroChilds cur).length + t'.heldOf cur))
    (hrest : (∀ f' ∈ R, f'.isLoopOver cur = false) ∨
      (t.coroChilds cur).length + t.heldOf cur ≤ (t'.coroChilds cur).length + t'.heldOf cur)
    (hfront : ∀ self cur loop rest,
      t'.stack t'.running = .resumeChilds self cur (loop + 1) none :: rest →
        t'.coroChilds cur ≠ []) : Supplied t' := by
  have hheld : ∀ owner, owner ≠ cur → t'.heldOf owner = t.heldOf owner := by
    intro owner hne
    have hnot : ∀ f : Frame, f.isLoopOver owner = decide (cur = owner) →
        ¬ f.holdsOf owner = true := by
      intro f hf hholds
      rw [decide_eq_false hne.symm] at hf
      exact absurd (hf.symm.trans (Frame.isLoopOver_of_holdsOf hholds)) Bool.false_ne_true
    rw [Sched.heldOf, Sched.heldOf, hR.countP_eq, hR'.countP_eq,
      List.countP_cons_of_neg (hnot f (hf owner)), List.countP_cons_of_neg (hnot g (hg owner))]
  refine ⟨fun owner f' hf' hover => ?_, fun owner f' hf' hover => ?_, hfront⟩
  · rcases List.mem_cons.mp (hR'.mem_iff.mp hf') with rfl | hin
    · have hover' : f.isLoopOver owner = true := (hf owner).trans ((hg owner).symm.trans hover)
      have hmem := hR.mem_iff.mpr List.mem_cons_self
      exact hlive owner (h.owner owner f hmem hover') ⟨f, List.mem_cons_self, hover'⟩
    · have hin := List.mem_cons_of_mem f hin
      exact hlive owner (h.owner owner f' (hR.mem_iff.mpr hin) hover) ⟨f', hin, hover⟩
  · by_cases hcur : owner = cur
    · subst hcur
      have hself := h.enough owner f (hR.mem_iff.mpr List.mem_cons_self)
        ((hf owner).trans (decide_eq_true rfl))
      rcases List.mem_cons.mp (hR'.mem_iff.mp hf') with rfl | hin
      · omega
      · have henough := h.enough owner f' (hR.mem_iff.mpr (List.mem_cons_of_mem f hin)) hover
        rcases hrest with halone | hmore
        · rw [halone f' hin] at hover
          cases hover
        · omega
    · rw [hother owner hcur, hheld owner hcur]
      rcases List.mem_cons.mp (hR'.mem_iff.mp hf') with rfl | hin
      · rw [hg owner] at hover
        exact absurd (of_decide_eq_true hover).symm hcur
      · exact h.enough owner f' (hR.mem_iff.mpr (List.mem_cons_of_mem f hin)) hover

/-- The pass ends. -/
theorem passEnd (h : Supplied s.toSched) (hinv : SchedInv s.toSched)
    (heffect : Effect s .lib (s.setStack rest) evs)
    (htop : s.stack s.running = .resumeChilds s.running cur loop none :: rest) :
    Supplied (s.setStack rest).toSched := by
  obtain ⟨R, hR, hR'⟩ := hinv.loops_perm (t := s.toSched) heffect [] rfl htop rfl rfl rfl
  have hR' : (s.setStack rest).loops.Perm R := hR'
  have hsub : ∀ f ∈ (s.setStack rest).loops, f ∈ s.loops := fun f hf =>
    hR.mem_iff.mpr (List.mem_cons_of_mem _ (hR'.mem_iff.mp hf))
  refine ⟨fun owner f hf hover => h.owner owner f (hsub f hf) hover, fun owner f hf hover => ?_,
    fun self owner k fs hagain => ?_⟩
  · have henough := h.enough owner f (hsub f hf) hover
    have hheld : s.heldOf owner = (s.setStack rest).heldOf owner :=
      ((hR.countP_eq _).trans (List.countP_cons_of_neg Bool.false_ne_true)).trans
        (hR'.countP_eq _).symm
    rw [hheld] at henough
    exact henough
  · have hst := hinv.stacked s.running
    have hpop : (s.setStack rest).stack s.running = rest := Function.update_self ..
    have hrest := hpop.symm.trans hagain
    rw [htop, hrest] at hst
    exact hst.not_on_turn.elim

/-- A turn that destroys its child, which no other pass has counted. -/
theorem destroy (h : Supplied s.toSched) (hinv : SchedInv s.toSched) {t : State}
    {child : Option CoroId}
    (htop : s.stack s.running = .resumeChilds s.running cur loop child :: rest)
    (halone : s.loopsOver cur = 1 ∧ s.loopsOver (some c) = 0) {k : Nat}
    (heffect : Effect s .lib ((t.destroy c).setStack
      (.resumeChilds s.running cur k none :: rest)) evs)
    (hrun : t.running = s.running) (hpool : t.pool = s.pool) (hstack : t.stack = s.stack)
    (hother : ∀ owner, owner ≠ cur → t.coroChilds owner = s.coroChilds owner)
    (hturn : child = none ∧ loop = k + 1 ∧
        (s.coroChilds cur).length = (t.coroChilds cur).length + 1 ∨
      child = some c ∧ loop = k ∧ t.coroChilds cur = s.coroChilds cur) :
    Supplied ((t.destroy c).setStack (.resumeChilds s.running cur k none :: rest)).toSched := by
  obtain ⟨R, hR, hR'⟩ := hinv.loops_perm (t := (t.destroy c).toSched) heffect
    [.resumeChilds s.running cur k none] rfl htop hrun hstack rfl
  have hrest : ∀ f ∈ R, f.isLoopOver cur = false := by
    have hone : s.loops.countP (Frame.isLoopOver cur) = 1 := halone.1
    rw [hR.countP_eq, List.countP_cons_of_pos Frame.isLoopOver_self] at hone
    intro f hf
    exact Bool.eq_false_iff.mpr (List.countP_eq_zero.mp (Nat.succ.inj hone) f hf)
  have hnone : R.countP (Frame.holdsOf cur) = 0 := by
    refine List.countP_eq_zero.mpr fun f hf hholds => ?_
    have hover := Frame.isLoopOver_of_holdsOf hholds
    rw [hrest f hf] at hover
    cases hover
  have henough := h.enough cur _ (hR.mem_iff.mpr List.mem_cons_self) Frame.isLoopOver_self
  have hheld' : ((t.destroy c).setStack (.resumeChilds s.running cur k none :: rest)).heldOf cur =
      0 := (hR'.countP_eq _).trans hnone
  have hheld : s.heldOf cur = child.toList.length := by
    rw [Sched.heldOf, hR.countP_eq, Frame.countP_holdsOf_cons, hnone, Nat.zero_add]
  -- the turns that are left, and the children
  have hleft : k + ((s.coroChilds cur).length + s.heldOf cur) ≤
      Frame.owes (.resumeChilds s.running cur loop child) + (t.coroChilds cur).length := by
    rcases hturn with ⟨rfl, rfl, hlen⟩ | ⟨rfl, rfl, hsame⟩
    · rw [hheld]
      simp only [Option.toList_none, List.length_nil, Frame.owes]
      omega
    · rw [hheld, hsame]
      simp only [Option.toList_some, List.length_singleton, Frame.owes]
      omega
  refine h.replace hR hR' (fun _ => rfl) (fun _ => rfl) (fun owner howner hover d hd => ?_) hother
    ?_ (.inl hrest) fun self owner k' fs hnext => ?_
  · obtain ⟨f, hf, hfd⟩ := hover
    have hne : d ≠ c := by
      rintro rfl
      rw [hd] at hfd
      exact List.countP_eq_zero.mp halone.2 f (hR.mem_iff.mpr hf) hfd
    show d ∈ t.pool.erase c
    rw [List.mem_erase_of_ne hne, hpool]
    exact howner d hd
  · rw [hheld']
    exact hleft
  · have htop' : (t.setStack (.resumeChilds s.running cur k none :: rest)).stack t.running =
        .resumeChilds s.running cur k none :: rest := Function.update_self ..
    have hsame := htop'.symm.trans hnext
    cases hsame
    intro hnil
    have hnil : t.coroChilds cur = [] := hnil
    rw [hnil] at hleft
    simp only [List.length_nil] at hleft
    omega

/-- A turn takes its child from the list, or puts it back. -/
theorem rotate (h : Supplied s.toSched) (hinv : SchedInv s.toSched) {l : List CoroId}
    {k : Nat} (new : List Frame) (child' : Option CoroId)
    (htop : s.stack s.running = .resumeChilds s.running cur loop child :: rest)
    (heffect : Effect s .lib ((s.setChilds cur l).setStack (new ++ rest)) evs)
    (hnew : loopsIn new = [.resumeChilds s.running cur k child'])
    (howes : Frame.owes (.resumeChilds s.running cur k child') ≤
      Frame.owes (.resumeChilds s.running cur loop child))
    (hcount : (s.coroChilds cur).length + child.toList.length = l.length + child'.toList.length)
    (hfront : ∀ self owner k' fs, new ++ rest = .resumeChilds self owner (k' + 1) none :: fs →
      owner = cur ∧ l ≠ []) :
    Supplied ((s.setChilds cur l).setStack (new ++ rest)).toSched := by
  obtain ⟨R, hR, hR'⟩ := hinv.loops_perm (t := (s.setChilds cur l).toSched) heffect new rfl htop
    rfl rfl rfl
  rw [hnew] at hR'
  have hlist : ((s.setChilds cur l).setStack (new ++ rest)).coroChilds cur = l :=
    Function.update_self ..
  have hheld : s.heldOf cur = R.countP (Frame.holdsOf cur) + child.toList.length :=
    (hR.countP_eq _).trans Frame.countP_holdsOf_cons
  have hheld' : ((s.setChilds cur l).setStack (new ++ rest)).heldOf cur =
      R.countP (Frame.holdsOf cur) + child'.toList.length :=
    (hR'.countP_eq _).trans Frame.countP_holdsOf_cons
  refine h.replace hR hR' (fun _ => rfl) (fun _ => rfl) (fun _ howner _ => howner)
    (fun owner hne => Function.update_of_ne hne ..) ?_ (.inr ?_) fun self owner k' fs hnext => ?_
  · rw [hlist, hheld, hheld']
    omega
  · rw [hlist, hheld, hheld']
    omega
  · have htop' : ((s.setChilds cur l).setStack (new ++ rest)).stack s.running = new ++ rest :=
      Function.update_self ..
    obtain ⟨rfl, hne⟩ := hfront self owner k' fs (htop'.symm.trans hnext)
    rw [hlist]
    exact hne

/-- A step of the loop at the top of the stack. -/
theorem turn (h : Supplied s.toSched) (hinv : SchedInv s.toSched) (hok : DestroysAlone s a)
    (htop : s.stack s.running = .resumeChilds s.running cur loop child :: rest)
    (hstep : s.step a = some (.ok (s', evs))) : Supplied s'.toSched := by
  have heffect := hinv.effect hstep
  obtain ⟨rfl, hframe⟩ := step_of_passAt (passAt_eq_some.mpr ⟨rfl, htop⟩) hstep
  have halone : ∀ {c : CoroId}, s.victim = some (cur, c) →
      s.loopsOver cur = 1 ∧ s.loopsOver (some c) = 0 := by
    intro c hvictim
    rwa [DestroysAlone, hvictim] at hok
  cases child with
  | none =>
      cases loop with
      | zero =>
          obtain ⟨rfl, rfl⟩ := Prod.mk.inj (Except.ok.inj hframe)
          exact h.passEnd hinv heffect htop
      | succ loop =>
          have hframe : s.passTurn s.running cur (loop + 1) rest = .ok (s', evs) := hframe
          obtain ⟨c, childs, -, hchilds, hlive, ⟨hdone, rfl, rfl⟩ | ⟨hdone, rfl, rfl⟩⟩ :=
            passTurn_ok hframe
          · have hvictim : s.victim = some (cur, c) := by
              simp only [Sched.victim, htop, hchilds, if_pos hdone]
            have hlist : (s.setChilds cur childs).coroChilds cur = childs :=
              Function.update_self ..
            refine h.destroy hinv htop (halone hvictim) heffect rfl rfl rfl
              (fun owner hne => Function.update_of_ne hne ..) (.inl ⟨rfl, rfl, ?_⟩)
            rw [hchilds, hlist]
            rfl
          · refine h.rotate hinv [_, _] (some c) htop heffect rfl
              (Nat.le_refl _) ?_ fun _ _ _ _ heq => by cases heq
            rw [hchilds]
            rfl
  | some c =>
      have hframe : s.passBack s.running cur loop c rest = .ok (s', evs) := hframe
      obtain ⟨hlive, ⟨hdone, rfl, rfl⟩ | ⟨hdone, -, rfl, rfl⟩⟩ := passBack_ok hframe
      · have hvictim : s.victim = some (cur, c) := by
          simp only [Sched.victim, htop, if_pos hdone]
        exact h.destroy (t := s) hinv htop (halone hvictim) heffect rfl rfl rfl (fun _ _ => rfl)
          (.inr ⟨rfl, rfl, rfl⟩)
      · refine h.rotate hinv [_] none htop heffect rfl (Nat.le_succ _) ?_
          fun _ owner _ _ heq => ?_
        · simp
        · cases heq
          exact ⟨rfl, by simp⟩

theorem step (h : Supplied s.toSched) (hinv : SchedInv s.toSched) (hok : DestroysAlone s a)
    (hstep : s.step a = some (.ok (s', evs))) : Supplied s'.toSched := by
  have heffect := hinv.effect hstep
  cases htop : s.stack s.running with
  | nil =>
      exact h.elsewhere hinv (hinv.step heffect) heffect fun f rest hf => by
        rw [htop] at hf
        cases hf
  | cons f rest =>
      cases hf : f.isLoop with
      | false =>
          refine h.elsewhere hinv (hinv.step heffect) heffect fun f' rest' hf' => ?_
          obtain ⟨rfl, -⟩ := List.cons.inj (htop.symm.trans hf')
          exact hf
      | true =>
          cases f with
          | resumeChilds self cur loop child =>
              have hst := hinv.stacked s.running
              rw [htop] at hst
              obtain rfl : self = s.running := hst.owned
              exact h.turn hinv hok htop hstep
          | _ => cases hf

end Supplied

/-! ## A pass always finds a child -/

theorem RunOf.supplied (h : RunOf DestroysAlone tr s) :
    SchedInv s.toSched ∧ Supplied s.toSched :=
  Transition.Run.invariant (I := fun s => SchedInv s.toSched ∧ Supplied s.toSched)
    (fun _ _ _ _ hinv hok hstep =>
      ⟨hinv.1.step (hinv.1.effect hstep), hinv.2.step hinv.1 hok hstep⟩) h
    ⟨schedInv_init, supplied_init⟩

/-- In every run in which passes destroy children alone, every turn finds a child at the
front of the list. -/
theorem pass_finds_child {self : Ctx} (h : RunOf DestroysAlone tr s)
    (htop : s.stack s.running = .resumeChilds self cur (loop + 1) none :: rest) :
    s.coroChilds cur ≠ [] ∧ s.step .lib ≠ some (.error .nullPointer) := by
  obtain ⟨hinv, hsupplied⟩ := h.supplied
  have hfront := hsupplied.front self cur loop rest htop
  refine ⟨hfront, fun hfault => ?_⟩
  rw [State.step_lib_eq htop nofun] at hfault
  exact State.passTurn_faults (P := (· ≠ .nullPointer)) nofun (fun hnil => absurd hnil hfront) _
    (Option.some.inj hfault) rfl

/-- Coroutine 0 passes over its children 1 and 2, and 1 starts a pass over the same list. -/
def startsNested : List Act :=
  [.user (.create 0 0), .user (.create 1 0), .user (.create 2 0), .user (.resume (some 0)),
    .lib, .lib, .lib, .user (.child 1), .user (.child 2), .user (.resumeChilds none),
    .lib, .lib, .lib, .lib, .user (.resumeChilds (some 0))]

theorem pass_finds_child_nested : ∃ tr s, RunOf DestroysAlone tr s ∧ s.loopsOver (some 0) = 2 ∧
    s.coroChilds (some 0) ≠ [] ∧ s.step .lib ≠ some (.error .nullPointer) := by
  have hrun : RunOf DestroysAlone _
      (Transition.after State.step DestroysAlone State.init startsNested).1 :=
    Transition.run_after (by decide +kernel)
  have htop : (Transition.after State.step DestroysAlone State.init startsNested).1.stack (some 1) =
      .resumeChilds (some 1) (some 0) (0 + 1) none :: [.execute 1 .body] := by decide +kernel
  exact ⟨_, _, hrun, by decide +kernel, pass_finds_child hrun htop⟩

/-- Both children finish. The inner pass destroys 2; the outer destroys 1 and has a turn
left, with nothing on the list. -/
def finishesNested : List Act :=
  startsNested ++ [.lib, .lib, .lib, .lib, .user .return, .lib, .lib, .lib, .lib,
    .user .return, .lib, .lib, .lib]

theorem nested_pass_runs_out : ∃ tr s, RunOf AnyUse tr s ∧
    s.stack s.running = [.resumeChilds (some 0) (some 0) 1 none, .execute 0 .body] ∧
    s.coroChilds (some 0) = [] ∧ s.step .lib = some (.error .nullPointer) := by
  have hfault : Transition.faultAfter State.step AnyUse State.init finishesNested .lib =
      some .nullPointer := by decide +kernel
  have hrun := Transition.fault_after hfault
  exact ⟨_, _, hrun.1, by decide +kernel, by decide +kernel, hrun.2⟩

end BoostCoro.Coroutine
