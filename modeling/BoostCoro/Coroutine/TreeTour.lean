import BoostCoro.Coroutine.Tree
import BoostCoro.Lib.Tour
/-!
# The passes in progress are a tour

The stacks of the running context and of the contexts below it, read as the levels
of one tour of the tree of coroutines. Every step of a tree-driven run is a move of
that tour.
-/

namespace BoostCoro.Coroutine

open Tour (Level Label Move Flow Nested Shape)

/-! ## The tour of a state -/

def ResumePc.phase : ResumePc → Tour.Phase
  | entry => .entry
  | transfer => .passed
  | back => .entered

def Frame.level : Frame → Option (Level CoroId)
  | resume _ coro pc => some (.visit coro pc.phase)
  | resumeChilds _ cur loop child => some (.turn cur loop child)
  | _ => none

def levelsOf (fs : List Frame) : List (Level CoroId) := fs.filterMap Frame.level

def Sched.levels (s : Sched) (below : List Ctx) : List (Level CoroId) :=
  (s.running :: below).flatMap fun x => levelsOf (s.stack x)

def State.tour (s : State) (path : List CoroId) (below : List Ctx) : Tour CoroId where
  levels := s.levels below
  path := path
  inside := fun c => some c ∈ s.running :: below
  yielding := fun c => .yield c .childs ∈ s.stack (some c)
  childs := s.coroChilds
  parent := s.coroParent
  finished := fun c => s.stat c = coroStatDone
  waiting := fun c => s.waiting c = true
  notified := fun c => s.notified c = true

def Obs.label : Obs → Option (Label CoroId)
  | transferred c => some (.visits c)
  | passBegin owner => some (.begins owner)
  | passEnd owner => some (.ends owner)
  | _ => none

def labels (evs : List Obs) : List (Label CoroId) := evs.filterMap Obs.label

variable {evs : List Obs} {c : CoroId}

theorem mem_labels {o : Obs} {l : Label CoroId} (ho : ∀ o', o'.label = some l ↔ o' = o) :
    l ∈ labels evs ↔ o ∈ evs := by
  unfold labels
  simp [ho]

theorem visits_mem : .visits c ∈ labels evs ↔ .transferred c ∈ evs :=
  mem_labels fun o => by cases o <;> simp [Obs.label]

theorem begins_mem {owner : Ctx} : .begins owner ∈ labels evs ↔ .passBegin owner ∈ evs :=
  mem_labels fun o => by cases o <;> simp [Obs.label]

theorem ends_mem {owner : Ctx} : .ends owner ∈ labels evs ↔ .passEnd owner ∈ evs :=
  mem_labels fun o => by cases o <;> simp [Obs.label]

theorem levelsOf_base {fs : List Frame} (h : Base fs) : levelsOf fs = [] := by
  apply List.filterMap_eq_nil_iff.mpr
  intro f hf
  have hpass := h f hf
  cases f with
  | resume => cases hpass
  | resumeChilds => cases hpass
  | _ => rfl

@[simp] theorem levelsOf_resumeChilds (x cur : Ctx) (loop : Nat) (child : Option CoroId)
    (fs : List Frame) :
    levelsOf (.resumeChilds x cur loop child :: fs) = .turn cur loop child :: levelsOf fs := rfl

variable {s s' : Sched} {x : Ctx} {fs gs rest : List Frame} {path : List CoroId}
  {below : List Ctx}

theorem Spine.nested (h : Spine s x fs path below) :
    Nested s.coroParent (levelsOf fs ++ below.flatMap fun y => levelsOf (s.stack y)) path := by
  induction h with
  | main hbase =>
      rw [levelsOf_base hbase]
      exact .nil
  | coro hbase _ htop _ ih =>
      rw [levelsOf_base hbase, List.nil_append, List.flatMap_cons, htop]
      exact ih
  | held _ hparent _ ih => exact .visit hparent ih

/-- The coroutine of a context that has control, or is owed it, was entered. -/
theorem Spine.entered (h : Spine s x fs path below) (hc : some c ∈ x :: below) :
    .visit c .entered ∈ levelsOf fs ++ below.flatMap fun y => levelsOf (s.stack y) := by
  induction h with
  | main => cases List.mem_singleton.mp hc
  | @coro d y fs rest path below _ _ htop _ ih =>
      apply List.mem_append_right
      rw [List.flatMap_cons, htop]
      rcases List.mem_cons.mp hc with heq | hc
      · cases heq
        exact List.mem_cons_self
      · exact ih hc
  | held _ _ _ ih => exact List.mem_cons_of_mem _ (List.mem_cons_of_mem _ (ih hc))

theorem Active.shape (h : Active s path below) :
    Shape s.coroParent (s.levels below) path ∧
      ∀ c, some c ∈ s.running :: below → .visit c .entered ∈ s.levels below := by
  unfold Sched.levels
  rw [List.flatMap_cons]
  cases h with
  | calls hspine => exact ⟨.nested hspine.nested, fun c hc => hspine.entered hc⟩
  | pass htop _ hspine =>
      rw [htop]
      exact ⟨.turn hspine.nested, fun c hc => List.mem_cons_of_mem _ (hspine.entered hc)⟩
  | back htop _ hparent hspine =>
      rw [htop]
      exact ⟨.back hparent hspine.nested,
        fun c hc => List.mem_cons_of_mem _ (hspine.entered hc)⟩

theorem Tree.ok {s : State} (h : Tree s.toSched path below) : (s.tour path below).Ok where
  shape := h.active.shape.1
  inside := h.active.shape.2
  listed := fun owner c hc => ⟨h.owner_eq hc, (h.listed owner c hc).2.2.2⟩

/-! ## Changes of the running stack -/

/-- The stack of the running context is replaced by `gs`. -/
structure Restack (s s' : Sched) (gs : List Frame) : Prop where
  running : s'.running = s.running
  stack : s'.stack = Function.update s.stack s.running gs

namespace Restack

theorem levels (h : Restack s s' gs) (hactive : Active s path below) :
    s'.levels below = levelsOf gs ++ below.flatMap fun y => levelsOf (s.stack y) := by
  unfold Sched.levels
  rw [List.flatMap_cons, h.running, h.stack, Function.update_self]
  congr 1
  apply List.flatMap_congr
  intro y hy
  have hne : y ≠ s.running := fun heq =>
    (List.nodup_cons.mp hactive.contexts_nodup).1 (heq ▸ hy)
  rw [Function.update_of_ne hne]

theorem flow {s s' : State} {left : Ctx} {es : List (Label CoroId)} {path' : List CoroId}
    (h : Restack s.toSched s'.toSched gs)
    (hyield : left = s.running ∨
      ∀ c, .yield c .childs ∈ gs → .yield c .childs ∈ s.stack s.running) :
    Flow left es (s.tour path below) (s'.tour path' below) where
  inside := fun c _ hc => by
    show some c ∈ s'.running :: below
    rw [h.running]
    exact hc
  yielding := fun c hne _ hc => by
    have hc : .yield c .childs ∈ s'.stack (some c) := hc
    rw [h.stack] at hc
    by_cases hrun : some c = s.running
    · rw [hrun, Function.update_self] at hc
      rcases hyield with hleft | hyield
      · exact absurd (hrun.trans hleft.symm) hne
      · show .yield c .childs ∈ s.stack (some c)
        rw [hrun]
        exact hyield c hc
    · rwa [Function.update_of_ne hrun] at hc
  enters := fun c hc => by
    have hc : some c ∈ s'.running :: below := hc
    rw [h.running] at hc
    exact .inl hc

end Restack

theorem restack_setStack {t : Sched} (ht : t = s.setStack gs) : Restack s t gs := by
  rw [ht]
  exact ⟨rfl, rfl⟩

/-! ## The kinds of steps -/

/-- The step keeps the tree and is a move of its tour. -/
def Goes (s : State) (path : List CoroId) (below : List Ctx) (s' : State)
    (es : List (Label CoroId)) : Prop :=
  ∃ path' below', Tree s'.toSched path' below' ∧
    Move (s.tour path below) (s'.tour path' below') es

namespace Tree

variable {s s' : State} {cur : Ctx} {loop : Nat} {pc : ResumePc} {q : CoroId}

theorem levels_eq (s : Sched) (below : List Ctx) :
    s.levels below =
      levelsOf (s.stack s.running) ++ below.flatMap fun y => levelsOf (s.stack y) :=
  List.flatMap_cons

/-- The running context goes on in no pass of its own. -/
theorem calm (h : Tree s.toSched path below) (hfs : Base (s.stack s.running)) (hgs : Base gs)
    (hyield : ∀ c, .yield c .childs ∈ gs → .yield c .childs ∈ s.stack s.running)
    (hs' : s'.toSched = s.toSched.setStack gs) : Goes s path below s' [] := by
  have hre := restack_setStack hs'
  refine ⟨path, below, hs' ▸ h.rebase hfs hgs, .calm (hre.flow (.inr hyield)) ?_ rfl fun o => ?_⟩
  · show s'.levels below = s.levels below
    rw [hre.levels h.active, levels_eq, levelsOf_base hfs, levelsOf_base hgs]
  · show s.coroChilds o <+: s'.coroChilds o
    rw [hs']
    exact List.prefix_rfl

/-- The running context starts a pass over its own list. -/
theorem ownPass (h : Tree s.toSched path below) (hfs : Base (s.stack s.running)) (hgs : Base gs)
    (hs' : s'.toSched = s.toSched.setStack
      (.resumeChilds s.running s.running (s.coroChilds s.running).length none :: gs)) :
    Goes s path below s' [.begins s.running] := by
  have hre := restack_setStack hs'
  have hspine := h.active.spine_of_base hfs
  have hhead := hspine.head_of_base hfs
  have hchilds : s'.coroChilds = s.coroChilds := by rw [hs']; rfl
  refine ⟨path, below, ?_, .ownPass (hre.flow (.inl rfl)) ?_ hhead (fun q hq => ?_) rfl
    fun o => ?_⟩
  · have hbase := h.rebase hfs hgs
    have hpass := hbase.enter (hbase.active.spine_of_base (by rw [top_setStack]; exact hgs))
    rw [hhead, Sched.push_setStack] at hpass
    rw [hs']
    exact hpass
  · show s'.levels below = .turn s.running (s'.coroChilds s.running).length none :: s.levels below
    rw [hre.levels h.active, levels_eq, levelsOf_base hfs, levelsOf_resumeChilds,
      levelsOf_base hgs, hchilds]
    rfl
  · show some q ∈ s.running :: below
    rw [hq]
    exact List.mem_cons_self
  · show s.coroChilds o <+: s'.coroChilds o
    rw [hchilds]

theorem levels_resume (htop : s.stack s.running = .resume s.running c pc :: rest) :
    s.levels below = .visit c pc.phase ::
      (levelsOf rest ++ below.flatMap fun y => levelsOf (s.stack y)) := by
  rw [levels_eq, htop]
  rfl

theorem levels_turn {child : Option CoroId}
    (htop : s.stack s.running = .resumeChilds s.running cur loop child :: rest) :
    s.levels below = .turn cur loop child ::
      (levelsOf rest ++ below.flatMap fun y => levelsOf (s.stack y)) := by
  rw [levels_eq, htop]
  rfl

/-- `resume` returns. -/
theorem skip (h : Tree s.toSched path below)
    (htop : s.stack s.running = .resume s.running c pc :: rest)
    (hs' : s'.toSched = s.toSched.setStack rest)
    (hwhy : pc.phase = .entry ∧ s.stat c = coroStatDone ∨
      pc.phase = .passed ∧ s.waiting c = true ∨ pc.phase = .entered) :
    Goes s path below s' [] := by
  have hre := restack_setStack hs'
  refine ⟨path, below, hs' ▸ h.resumeReturn htop,
    .skip (hre.flow (.inr fun d hd => ?_)) ?_ rfl (fun o => ?_) (h.resumed_off htop) hwhy⟩
  · rw [htop]
    exact List.mem_cons_of_mem _ hd
  · show s.levels below = _ :: s'.levels below
    rw [hre.levels h.active, levels_resume htop]
  · show s.coroChilds o <+: s'.coroChilds o
    rw [hs']
    exact List.prefix_rfl

/-- `resume` finds no CHLD flag. -/
theorem straight (h : Tree s.toSched path below)
    (htop : s.stack s.running = .resume s.running c .entry :: rest)
    (hs' : s'.toSched = s.toSched.setStack (.resume s.running c .transfer :: rest))
    (hno : s.notified c = false) : Goes s path below s' [] := by
  have hre := restack_setStack hs'
  refine ⟨path, below, hs' ▸ h.advance htop,
    .straight (hre.flow (.inr fun d hd => ?_)) (levels_resume htop) ?_ rfl (fun o => ?_)
      (h.resumed_off htop) (Bool.eq_false_iff.mp hno)⟩
  · rw [htop]
    exact List.mem_cons_of_mem _ ((List.mem_cons.mp hd).resolve_left nofun)
  · exact hre.levels h.active
  · show s.coroChilds o <+: s'.coroChilds o
    rw [hs']
    exact List.prefix_rfl

/-- `resume` goes over the list of its coroutine. -/
theorem visitPass (h : Tree s.toSched path below)
    (htop : s.stack s.running = .resume s.running c .entry :: rest)
    (hs' : s'.toSched = s.toSched.setStack
      (.resumeChilds s.running (some c) (s.coroChilds (some c)).length none ::
        .resume s.running c .transfer :: rest)) :
    Goes s path below s' [.begins (some c)] := by
  have hre := restack_setStack hs'
  have hchilds : s'.coroChilds = s.coroChilds := by rw [hs']; rfl
  have hadvance : Tree (s.toSched.setStack (.resume s.running c .transfer :: rest)) path below :=
    h.advance htop
  have hspine := hadvance.active.spine_of_resume (top_setStack _ _)
  have hhead : path.head? = some c := by
    obtain ⟨_, _, _, _, rfl, _⟩ := hspine.of_resume
    rfl
  refine ⟨path, below, ?_, .visitPass (hre.flow (.inr fun d hd => ?_)) (levels_resume htop) ?_ rfl
    (fun o => ?_) (h.resumed_off htop)⟩
  · have hpass := hadvance.enter (by rw [top_setStack]; exact hspine)
    rw [hhead, Sched.push_setStack] at hpass
    rw [hs']
    exact hpass
  · rw [htop]
    have hd := (List.mem_cons.mp hd).resolve_left nofun
    exact List.mem_cons_of_mem _ ((List.mem_cons.mp hd).resolve_left nofun)
  · show s'.levels below = .turn (some c) (s'.coroChilds (some c)).length none :: _
    rw [hre.levels h.active, hchilds]
    rfl
  · show s.coroChilds o <+: s'.coroChilds o
    rw [hchilds]

theorem passEnds (h : Tree s.toSched path below)
    (htop : s.stack s.running = .resumeChilds s.running cur 0 none :: rest)
    (hs' : s'.toSched = s.toSched.setStack rest) : Goes s path below s' [.ends cur] := by
  have hre := restack_setStack hs'
  refine ⟨path, below, hs' ▸ h.passEnd htop, .passEnd (hre.flow (.inr fun d hd => ?_)) ?_ rfl
    fun o => ?_⟩
  · rw [htop]
    exact List.mem_cons_of_mem _ hd
  · show s.levels below = _ :: s'.levels below
    rw [hre.levels h.active, levels_turn htop]
  · show s.coroChilds o <+: s'.coroChilds o
    rw [hs']
    exact List.prefix_rfl

theorem destroys {childs : List CoroId} (h : Tree s.toSched path below)
    (hinv : SchedInv s.toSched)
    (htop : s.stack s.running = .resumeChilds s.running cur (loop + 1) none :: rest)
    (hchilds : s.coroChilds cur = c :: childs) (hdone : s.stat c = coroStatDone)
    (hs' : s'.toSched = ((s.toSched.setChilds cur childs).destroy c).setStack
      (.resumeChilds s.running cur loop none :: rest)) : Goes s path below s' [] := by
  have hre : Restack s.toSched s'.toSched (.resumeChilds s.running cur loop none :: rest) := by
    rw [hs']
    exact ⟨rfl, rfl⟩
  refine ⟨path, below, hs' ▸ h.passDestroy hinv.nodup htop hchilds hdone,
    .destroy (hre.flow (.inr fun d hd => ?_)) (levels_turn htop) (hre.levels h.active) rfl hchilds
      ?_ (fun o ho => ?_) hdone⟩
  · rw [htop]
    exact List.mem_cons_of_mem _ ((List.mem_cons.mp hd).resolve_left nofun)
  · show s'.coroChilds cur = childs
    rw [hs']
    exact Function.update_self ..
  · show s.coroChilds o <+: s'.coroChilds o
    rw [hs', show (((s.toSched.setChilds cur childs).destroy c).setStack _).coroChilds o =
      s.coroChilds o from Function.update_of_ne ho ..]

theorem holds {childs : List CoroId} (h : Tree s.toSched path below)
    (htop : s.stack s.running = .resumeChilds s.running cur (loop + 1) none :: rest)
    (hchilds : s.coroChilds cur = c :: childs)
    (hs' : s'.toSched = (s.toSched.setChilds cur childs).setStack
      (.resume s.running c .entry :: .resumeChilds s.running cur loop (some c) :: rest)) :
    Goes s path below s' [] := by
  have hre : Restack s.toSched s'.toSched (.resume s.running c .entry ::
      .resumeChilds s.running cur loop (some c) :: rest) := by
    rw [hs']
    exact ⟨rfl, rfl⟩
  refine ⟨c :: path, below, hs' ▸ h.passHold htop hchilds,
    .hold (hre.flow (.inr fun d hd => ?_)) (levels_turn htop) (hre.levels h.active) rfl hchilds
      ?_ fun o ho => ?_⟩
  · rw [htop]
    have hd := (List.mem_cons.mp hd).resolve_left nofun
    exact List.mem_cons_of_mem _ ((List.mem_cons.mp hd).resolve_left nofun)
  · show s'.coroChilds cur = childs
    rw [hs']
    exact Function.update_self ..
  · show s.coroChilds o <+: s'.coroChilds o
    rw [hs', show ((s.toSched.setChilds cur childs).setStack _).coroChilds o =
      s.coroChilds o from Function.update_of_ne ho ..]

theorem keeps (h : Tree s.toSched path below)
    (htop : s.stack s.running = .resumeChilds s.running cur loop (some c) :: rest)
    (hs' : s'.toSched = (s.toSched.setChilds cur (s.coroChilds cur ++ [c])).setStack
      (.resumeChilds s.running cur loop none :: rest)) : Goes s path below s' [] := by
  have hre : Restack s.toSched s'.toSched (.resumeChilds s.running cur loop none :: rest) := by
    rw [hs']
    exact ⟨rfl, rfl⟩
  obtain ⟨path', rfl, htree⟩ := h.passKeep htop
  refine ⟨path', below, hs' ▸ htree, .keep (hre.flow (.inr fun d hd => ?_)) (levels_turn htop)
    (hre.levels h.active) rfl fun o => ?_⟩
  · rw [htop]
    exact List.mem_cons_of_mem _ ((List.mem_cons.mp hd).resolve_left nofun)
  · show s.coroChilds o <+: s'.coroChilds o
    rw [hs']
    show _ <+: Function.update s.coroChilds cur (s.coroChilds cur ++ [c]) o
    by_cases ho : o = cur
    · rw [ho, Function.update_self]
      exact List.prefix_append _ _
    · rw [Function.update_of_ne ho]

theorem drops (h : Tree s.toSched path below) (hinv : SchedInv s.toSched)
    (htop : s.stack s.running = .resumeChilds s.running cur loop (some c) :: rest)
    (hdone : s.stat c = coroStatDone)
    (hs' : s'.toSched = (s.toSched.destroy c).setStack
      (.resumeChilds s.running cur loop none :: rest)) : Goes s path below s' [] := by
  have hre : Restack s.toSched s'.toSched (.resumeChilds s.running cur loop none :: rest) := by
    rw [hs']
    exact ⟨rfl, rfl⟩
  obtain ⟨path', rfl, htree⟩ := h.passDrop hinv.nodup htop hdone
  refine ⟨path', below, hs' ▸ htree, .drop (hre.flow (.inr fun d hd => ?_)) (levels_turn htop)
    (hre.levels h.active) rfl (fun o => ?_) hdone⟩
  · rw [htop]
    exact List.mem_cons_of_mem _ ((List.mem_cons.mp hd).resolve_left nofun)
  · show s.coroChilds o <+: s'.coroChilds o
    rw [hs']
    exact List.prefix_rfl

/-! ### Switches of context -/

/-- The stack of the coroutine that control goes to: it starts, or it is behind its `yield`. -/
theorem entered_base (h : Tree s.toSched path below) (hinv : SchedInv s.toSched)
    (hlive : c ∈ s.pool) (hoff : some c ∉ s.running :: below)
    (hstat : s.stat c = coroStatInit ∨ s.stat c = coroStatWait) :
    Base (((s.toSched.setStack fs).switchTo c).stack (some c)) ∧
      .yield c .childs ∉ ((s.toSched.setStack fs).switchTo c).stack (some c) := by
  have hne : some c ≠ s.running := fun heq => hoff (heq ▸ List.mem_cons_self)
  have hstack : (s.toSched.setStack fs).stack (some c) = s.stack (some c) :=
    Function.update_of_ne hne ..
  rw [SchedInv.switchTo_stack, hstack]
  split
  · exact ⟨.cons rfl .nil, by simp⟩
  next hnil =>
    have hnil : s.stack (some c) ≠ [] := fun heq => hnil ⟨rfl, heq⟩
    have hbase := h.idle c hlive hoff
    have hwait := hstat.resolve_left fun hinit => hnil ((hinv.fresh c hlive).mp hinit)
    obtain ⟨f, rest', htop', haway⟩ := hinv.parked c hlive hwait
    have hst := hinv.stacked (some c)
    rw [htop'] at hst hbase ⊢
    refine ⟨hbase, fun hmem => ?_⟩
    rcases List.mem_cons.mp hmem with rfl | hmem
    · cases haway
    · exact hst.yield_top hbase.top hmem

theorem enters (h : Tree s.toSched path below) (hinv : SchedInv s.toSched)
    (htop : s.stack s.running = .resume s.running c .transfer :: rest)
    (hstat : s.stat c = coroStatInit ∨ s.stat c = coroStatWait)
    (hs' : s'.toSched = (s.toSched.setStack (.resume s.running c .back :: rest)).switchTo c) :
    Goes s path below s' [.visits c] := by
  have hoff := h.resumed_off htop
  have hlive : c ∈ s.pool := by
    obtain ⟨_, _, _, _, rfl, _⟩ := (h.active.spine_of_resume htop).of_resume
    exact (h.onPath c List.mem_cons_self).1
  have hback : Tree (s.toSched.setStack (.resume s.running c .back :: rest)) path below :=
    h.advance htop
  have hrun : s'.running = some c := by rw [hs']; rfl
  have hother : ∀ x, x ≠ some c →
      s'.stack x = (s.toSched.setStack (.resume s.running c .back :: rest)).stack x := by
    intro x hx
    rw [hs', SchedInv.switchTo_stack, if_neg fun heq => hx heq.1]
  have hself : Base (s'.stack (some c)) ∧ .yield c .childs ∉ s'.stack (some c) := by
    rw [hs']
    exact entered_base h hinv hlive hoff hstat
  have hlevels : s'.levels (s.running :: below) = .visit c .entered ::
      (levelsOf rest ++ below.flatMap fun y => levelsOf (s.stack y)) := by
    have hsame : (s.running :: below).flatMap (fun y => levelsOf (s'.stack y)) =
        (s.toSched.setStack (.resume s.running c .back :: rest)).levels below := by
      apply List.flatMap_congr
      intro y hy
      rw [hother y fun heq => hoff (heq ▸ hy)]
    have hre : Restack s.toSched (s.toSched.setStack (.resume s.running c .back :: rest)) _ :=
      ⟨rfl, rfl⟩
    rw [levels_eq, hrun, levelsOf_base hself.1, List.nil_append, hsame, hre.levels h.active]
    rfl
  refine ⟨path, s.running :: below, ?_, .enter ?_ (levels_resume htop) hlevels rfl (fun o => ?_)
    hoff ?_ hself.2⟩
  · rw [hs']
    exact hback.switchTo (top_setStack _ _)
  · constructor
    case inside =>
      intro d _ hd
      show some d ∈ s'.running :: s.running :: below
      exact List.mem_cons_of_mem _ hd
    case yielding =>
      intro d _ hd hy
      have hdc : some d ≠ some c := fun heq => hoff (heq ▸ hd)
      have hy : .yield d .childs ∈ s'.stack (some d) := hy
      rw [hother _ hdc] at hy
      show .yield d .childs ∈ s.stack (some d)
      by_cases hdr : some d = s.running
      · rw [hdr] at hy ⊢
        rw [show (s.toSched.setStack _).stack s.running = _ from Function.update_self ..] at hy
        rw [htop]
        exact List.mem_cons_of_mem _ ((List.mem_cons.mp hy).resolve_left nofun)
      · rwa [show (s.toSched.setStack _).stack (some d) = s.stack (some d) from
          Function.update_of_ne hdr ..] at hy
    case enters =>
      intro d hd
      have hd : some d ∈ s'.running :: s.running :: below := hd
      rw [hrun] at hd
      rcases List.mem_cons.mp hd with heq | hd
      · cases heq
        exact .inr List.mem_cons_self
      · exact .inl hd
  · show s.coroChilds o <+: s'.coroChilds o
    rw [hs']
    exact List.prefix_rfl
  · show some c ∈ s'.running :: _
    rw [hrun]
    exact List.mem_cons_self

/-- Control goes back from `q`, which is left in state `v` with the stack `gs`. -/
theorem leaves {v : StatT} (h : Tree s.toSched path below) (hrun : s.running = some q)
    (hfs : Base (s.stack s.running)) (hgs : Base gs)
    (hleft : v = coroStatWait ∧ .yield q .childs ∈ s.stack (some q) ∨
      v ≠ coroStatInit ∧ s.coroChilds (some q) = [])
    (hstat : ∀ d, s'.stat d =
      if s.coroPre q = some d then coroStatBusy else if d = q then v else s.stat d)
    (hs' : s'.toSched = { s.toSched with
      stat := s'.stat
      currentCoroutine := s.coroPre q
      running := s.coroPre q
      stack := Function.update s.stack (some q) gs }) : Goes s path below s' [] := by
  have hv : v ≠ coroStatInit := by
    rcases hleft with ⟨rfl, _⟩ | ⟨hv, _⟩
    · decide
    · exact hv
  obtain ⟨below', rfl, htree⟩ := h.leave hrun hfs hgs (hleft.imp And.left And.right) hv hstat hs'
  have hnodup := h.active.contexts_nodup
  rw [hrun] at hnodup
  have hoff := (List.nodup_cons.mp hnodup).1
  have hother : ∀ x, x ≠ some q → s'.stack x = s.stack x := fun x hx => by
    rw [hs']
    exact Function.update_of_ne hx ..
  have hrunning : s'.running = s.coroPre q := by rw [hs']
  have hchilds : s'.coroChilds = s.coroChilds := by rw [hs']
  refine ⟨path, below', htree, .leave (q := q) ?_ ?_ rfl (fun o => ?_) ?_⟩
  · constructor
    case inside =>
      intro d hdq hd
      have hd : some d ∈ s.running :: s.coroPre q :: below' := hd
      rw [hrun] at hd
      show some d ∈ s'.running :: below'
      rw [hrunning]
      exact (List.mem_cons.mp hd).resolve_left hdq
    case yielding =>
      intro d hdq _ hy
      have hy : .yield d .childs ∈ s'.stack (some d) := hy
      rwa [hother _ hdq] at hy
    case enters =>
      intro d hd
      have hd : some d ∈ s'.running :: below' := hd
      rw [hrunning] at hd
      exact .inl (List.mem_cons_of_mem _ hd)
  · show (s'.running :: below').flatMap (fun y => levelsOf (s'.stack y)) = s.levels _
    rw [levels_eq, levelsOf_base hfs, List.nil_append, hrunning]
    apply List.flatMap_congr
    intro y hy
    rw [hother y fun heq => hoff (heq ▸ hy)]
  · show s.coroChilds o <+: s'.coroChilds o
    rw [hchilds]
  · exact hleft.imp And.right And.right

/-! ### Constructing, attaching and flags -/

/-- Nothing that a pass in progress depends on changes. -/
theorem still (htree : Tree s'.toSched path below)
    (hrun : s'.running = s.running)
    (hstack : ∀ x ∈ s.running :: below, s'.stack x = s.stack x)
    (hchilds : ∀ o, s.coroChilds o <+: s'.coroChilds o) : Goes s path below s' [] := by
  refine ⟨path, below, htree, .calm ?_ ?_ rfl hchilds⟩
  · constructor
    case inside =>
      intro d _ hd
      show some d ∈ s'.running :: below
      rw [hrun]
      exact hd
    case yielding =>
      intro d _ hd hy
      have hy : .yield d .childs ∈ s'.stack (some d) := hy
      rwa [hstack _ hd] at hy
    case enters =>
      intro d hd
      have hd : some d ∈ s'.running :: below := hd
      rw [hrun] at hd
      exact .inl hd
  · show (s'.running :: below).flatMap (fun y => levelsOf (s'.stack y)) = s.levels below
    rw [hrun]
    apply List.flatMap_congr
    intro y hy
    rw [hstack y hy]

end Tree

/-! ## Every step -/

variable {t t' : State} {a : Act} {q : CoroId}

/-- A pass of the running context over its own list. -/
theorem EnterPass.own (hpass : EnterPass t none t' evs) :
    evs = [.passBegin t.running] ∧ t'.toSched = t.toSched.push
      (.resumeChilds t.running t.running (t.coroChilds t.running).length none) := by
  cases hpass with
  | skip _ hcoro => cases hcoro
  | enter hcur =>
      rw [Option.none_or] at hcur
      subst hcur
      refine ⟨rfl, ?_⟩
      show Sched.push (t.dropChld _).toSched _ = _
      rw [dropChld_toSched]

/-- A pass over the list of another coroutine. -/
theorem EnterPass.elsewhere (hpass : EnterPass t (some c) t' evs) (hne : t.running ≠ some c) :
    evs = [.passBegin (some c)] ∧ t'.toSched = t.toSched.push
      (.resumeChilds t.running (some c) (t.coroChilds (some c)).length none) := by
  cases hpass with
  | skip hrun hcoro => exact absurd (hrun.trans hcoro.symm) hne
  | enter hcur =>
      rw [Option.some_or] at hcur
      subst hcur
      refine ⟨rfl, ?_⟩
      show Sched.push (t.dropChld _).toSched _ = _
      rw [dropChld_toSched]

theorem labels_quiet (h : ∀ o ∈ evs, o.quiet = true) : labels evs = [] := by
  apply List.filterMap_eq_nil_iff.mpr
  intro o ho
  have hquiet := h o ho
  cases o with
  | transferred => cases hquiet
  | passBegin => cases hquiet
  | passEnd => cases hquiet
  | _ => rfl

namespace Tree

variable {f : Frame}

theorem base_of_top (hinv : SchedInv t.toSched) (htop : t.stack t.running = f :: rest)
    (hf : f.isPass = false) : Base (t.stack t.running) := by
  have hst : Stacked t.running (f :: rest) := htop ▸ hinv.stacked t.running
  rw [htop]
  exact hst.base hf

theorem base_of_user (hinv : SchedInv t.toSched) (huser : t.inUserCode = true) :
    Base (t.stack t.running) := by
  rcases hinv.userCode huser with ⟨_, htop⟩ | ⟨c, _, htop⟩
  · rw [htop]
    exact .nil
  · rw [htop]
    exact .cons rfl .nil

/-- A call outside the passes returns. -/
theorem pop (h : Tree t.toSched path below) (hinv : SchedInv t.toSched)
    (htop : t.stack t.running = f :: rest) (hf : f.isPass = false)
    (ht' : t'.toSched = t.toSched.setStack rest) : Goes t path below t' [] := by
  have hbase := base_of_top hinv htop hf
  refine h.calm hbase (htop ▸ hbase : Base (f :: rest)).tail (fun c hc => ?_) ht'
  rw [htop]
  exact List.mem_cons_of_mem _ hc

/-- A call outside the passes goes on. -/
theorem replace {g : Frame} (h : Tree t.toSched path below) (hinv : SchedInv t.toSched)
    (htop : t.stack t.running = f :: rest) (hf : f.isPass = false) (hg : g.isPass = false)
    (hyield : ∀ c, g ≠ .yield c .childs)
    (ht' : t'.toSched = t.toSched.setStack (g :: rest)) : Goes t path below t' [] := by
  have hbase := base_of_top hinv htop hf
  refine h.calm hbase (.cons hg (htop ▸ hbase : Base (f :: rest)).tail) (fun c hc => ?_) ht'
  rw [htop]
  exact List.mem_cons_of_mem _ ((List.mem_cons.mp hc).resolve_left fun heq => hyield c heq.symm)

/-- User code makes a call outside the passes. -/
theorem call (h : Tree t.toSched path below) (hinv : SchedInv t.toSched)
    (huser : t.inUserCode = true) (hf : f.isPass = false) (hyield : ∀ c, f ≠ .yield c .childs)
    (ht' : t'.toSched = t.toSched.push f) : Goes t path below t' [] := by
  have hbase := base_of_user hinv huser
  refine h.calm hbase (.cons hf hbase) (fun c hc => ?_) ht'
  exact (List.mem_cons.mp hc).resolve_left fun heq => hyield c heq.symm

/-- Some calls outside the passes, and then a pass of the running context. -/
theorem callPass {u : State} (h : Tree t.toSched path below)
    (hbase : Base (t.stack t.running)) (hgs : Base gs) (hu : u.toSched = t.toSched.setStack gs)
    (hpass : EnterPass u none t' evs) : Goes t path below t' (labels evs) := by
  obtain ⟨rfl, hs'⟩ := hpass.own
  have hrun : u.running = t.running := by rw [hu]; rfl
  rw [hu, Sched.push_setStack] at hs'
  rw [hrun]
  exact h.ownPass hbase hgs hs'

theorem move (h : Tree t.toSched path below) (hinv : SchedInv t.toSched)
    (hok : TreeDriven t a) (heffect : Effect t a t' evs) : Goes t path below t' (labels evs) := by
  have hself : t.toSched = t.toSched.setStack (t.stack t.running) := by
    simp [Sched.setStack]
  cases heffect with
  | @resumeIdle c rest htop _ hstat =>
      refine h.skip htop rfl (.inl ⟨rfl, hstat.resolve_right fun hbusy => ?_⟩)
      have hlive : c ∈ t.pool := by assumption
      exact h.resumed_off htop ((hinv.busy c hlive).mp hbusy ▸ List.mem_cons_self)
  | resumeStraight htop _ _ hno => exact h.straight htop rfl hno
  | @resumePass c rest _ _ htop _ _ _ hpass =>
      have hne : t.running ≠ some c := fun heq => h.resumed_off htop (heq ▸ List.mem_cons_self)
      obtain ⟨rfl, hs'⟩ := hpass.elsewhere hne
      refine h.visitPass htop (hs'.trans ?_)
      exact Sched.push_setStack ..
  | resumeWaiting htop _ hwait => exact h.skip htop rfl (.inr (.inl ⟨rfl, hwait⟩))
  | transfer htop _ hstat _ => exact h.enters hinv htop hstat rfl
  | resumeBack htop => exact h.skip htop rfl (.inr (.inr rfl))
  | passEnd htop => exact h.passEnds htop rfl
  | passDestroy htop _ hchilds _ hdone => exact h.destroys hinv htop hchilds hdone rfl
  | passHold htop _ hchilds => exact h.holds htop hchilds rfl
  | passDrop htop _ hdone => exact h.drops hinv htop hdone rfl
  | passKeep htop => exact h.keeps htop rfl
  | allEnd _ htop => exact h.pop hinv htop rfl rfl
  | allPass _ htop _ hpass =>
      have hbase := base_of_top hinv htop rfl
      exact h.callPass hbase hbase hself hpass
  | @yieldOut q rest hrun htop =>
      have hbase := base_of_top hinv htop rfl
      have hbusy : t.stat q = coroStatBusy := hinv.running_busy hrun
      have hyield : .yield q .childs ∈ t.stack (some q) := by
        rw [← hrun, htop]
        exact List.mem_cons_self
      have hgs : Base (.yield q .back :: rest) :=
        .cons rfl (htop ▸ hbase : Base (_ :: rest)).tail
      refine h.leaves hrun hbase hgs (.inl ⟨rfl, hyield⟩) (fun d => ?_) ?_
      · rw [SchedInv.switchBack_stat]
        simp [Sched.setStack, hbusy]
      · simp [Sched.switchBack, Sched.setStack, hrun]
  | yieldBack _ htop => exact h.pop hinv htop rfl rfl
  | executeEntry _ htop => exact h.replace hinv htop rfl rfl (by rintro _ ⟨⟩) rfl
  | executePass _ htop _ hpass =>
      have hbase := base_of_top hinv htop rfl
      exact h.callPass hbase hbase hself hpass
  | @finish c hrun htop hchilds =>
      have hbase := base_of_top hinv htop rfl
      have hne : coroStatDone ≠ coroStatBusy := by decide
      have hgs : Base [.execute c .back] := .cons rfl .nil
      refine h.leaves (v := coroStatDone) hrun hbase hgs (.inr ⟨by decide, hchilds⟩)
        (fun d => ?_) ?_
      · rw [SchedInv.switchBack_stat]
        simp [Sched.setStack, Sched.setStat, hne, Function.update_apply]
      · simp [Sched.switchBack, Sched.setStack, Sched.setStat, hrun]
  | mgetSleep _ htop _ hpass =>
      have hbase := base_of_top hinv htop rfl
      exact h.callPass hbase (.cons rfl hbase) rfl hpass
  | mgetTake _ htop => exact h.pop hinv htop rfl rfl
  | waitPersist htop => exact h.pop hinv htop rfl rfl
  | waitRelease htop => exact h.pop hinv htop rfl rfl
  | @create c _ _ hc =>
      have htree : Tree (t.toSched.construct c) path below := h.construct hc
      have hoff : ∀ x ∈ t.running :: below, x ≠ some c := fun x hx heq =>
        hc (h.onPath c (h.active.mem_path (heq ▸ hx))).1
      refine htree.still rfl (fun x hx => Function.update_of_ne (hoff x hx) ..) fun o => ?_
      show t.coroChilds o <+: Function.update t.coroChilds (some c) [] o
      by_cases ho : o = some c
      · rw [ho, h.dead_list hc]
        exact List.nil_prefix
      · rw [Function.update_of_ne ho]
  | @child c =>
      have htree := h.attach hinv hok.1 hok.2
      refine Tree.still htree rfl (fun _ _ => rfl) fun o => ?_
      show t.coroChilds o <+:
        Function.update t.coroChilds t.running (t.coroChilds t.running ++ [c]) o
      by_cases ho : o = t.running
      · rw [ho, Function.update_self]
        exact List.prefix_append _ _
      · rw [Function.update_of_ne ho]
  | callResume => cases hok
  | callResumeAll huser => exact h.call hinv huser rfl (by rintro _ ⟨⟩) rfl
  | callPass huser hpass =>
      obtain ⟨rfl, _⟩ := hok
      have hbase := base_of_user hinv huser
      exact h.callPass hbase hbase hself hpass
  | callYield huser _ hpass =>
      have hbase := base_of_user hinv huser
      exact h.callPass hbase (.cons rfl hbase) rfl hpass
  | bodyReturn _ htop => exact h.replace hinv htop rfl rfl (by rintro _ ⟨⟩) rfl
  | callMget huser => exact h.call hinv huser rfl (by rintro _ ⟨⟩) rfl
  | waitMain huser => exact h.call hinv huser rfl (by rintro _ ⟨⟩) rfl
  | @waitCoro _ c q spec b _ _ _ huser _ _ _ hpass =>
      have hbase := base_of_user hinv huser
      have hgs : Base (.yield q .childs :: .wait c spec b :: t.stack t.running) :=
        .cons rfl (.cons rfl hbase)
      have hgoes := h.callPass hbase hgs (Sched.push_setStack ..) hpass
      exact hgoes
  | quiet _ hquiet =>
      have hsched := hquiet.sched
      rw [labels_quiet hquiet.events]
      refine Tree.still (hsched ▸ h) (by rw [hsched]) (fun x _ => by rw [hsched]) fun o => ?_
      rw [hsched]

end Tree

/-! ## Runs -/

/-- A step of a tree-driven run, with the trees and the tours before and after it. -/
structure Stride (s : State) (path : List CoroId) (below : List Ctx) (a : Act) (evs : List Obs)
    (s' : State) (path' : List CoroId) (below' : List Ctx) : Prop where
  inv : SchedInv s.toSched
  tree : Tree s.toSched path below
  effect : Effect s a s' evs
  tree' : Tree s'.toSched path' below'
  move : Move (s.tour path below) (s'.tour path' below') (labels evs)

theorem Tree.stride (h : Tree t.toSched path below) (hinv : SchedInv t.toSched)
    (hok : TreeDriven t a) (hstep : t.step a = some (.ok (t', evs))) :
    ∃ path' below', Stride t path below a evs t' path' below' := by
  have heffect := hinv.effect hstep
  obtain ⟨path', below', htree', hmove⟩ := h.move hinv hok heffect
  exact ⟨path', below', hinv, h, heffect, htree', hmove⟩

/-- What every such step keeps holds after every run. -/
theorem Tree.run {ok : State → Act → Prop} {P : List Obs → State → List CoroId → List Ctx → Prop}
    {tr : List Obs} (himp : ∀ s a, ok s a → TreeDriven s a)
    (hkeeps : ∀ tr s path below a evs s' path' below',
      Stride s path below a evs s' path' below' → ok s a → P tr s path below →
        P (tr ++ evs) s' path' below')
    (hrun : Transition.Run State.step ok t tr t') (hinv : SchedInv t.toSched)
    (h : Tree t.toSched path below) (hP : P [] t path below) :
    SchedInv t'.toSched ∧ ∃ path' below', Tree t'.toSched path' below' ∧ P tr t' path' below' := by
  refine Transition.Run.invariant_trace (I := fun tr s => SchedInv s.toSched ∧
    ∃ path below, Tree s.toSched path below ∧ P tr s path below) ?_ hrun ⟨hinv, path, below, h, hP⟩
  intro tr s a s' evs hall hok hstep
  obtain ⟨hinv, path, below, htree, hP⟩ := hall
  obtain ⟨path', below', hstride⟩ := htree.stride hinv (himp s a hok) hstep
  exact ⟨hinv.step hstride.effect, path', below', hstride.tree',
    hkeeps tr s path below a evs s' path' below' hstride hok hP⟩

theorem RunOf.tree {tr : List Obs} {ok : State → Act → Prop}
    (himp : ∀ s a, ok s a → TreeDriven s a) (h : RunOf ok tr t) :
    ∃ path below, Tree t.toSched path below := by
  have hboth := Tree.run (P := fun _ _ _ _ => True) himp
    (fun _ _ _ _ _ _ _ _ _ _ _ _ => trivial) h schedInv_init tree_init trivial
  obtain ⟨_, path, below, htree, _⟩ := hboth
  exact ⟨path, below, htree⟩

end BoostCoro.Coroutine
