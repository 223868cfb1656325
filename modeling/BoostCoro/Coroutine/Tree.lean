import BoostCoro.Coroutine.Spine
/-!
# The tree of coroutines

A run is tree-driven when control moves only by the passes of main, by `yield` and
by the waits, and each coroutine is attached once. In such a run every attached
coroutine is in the list of its owner or held by the one pass in progress on that
list.
-/

namespace BoostCoro.Coroutine

/-- Control moves only by main's `resume()` and `resume_childs()`, by `yield` and
by what is built on it, and a coroutine is attached once. -/
def TreeDriven (s : State) : Act → Prop
  | .user (.child c) => c ∈ s.pool ∧ s.attached c = false
  | .user (.resume coro) => coro = none
  | .user (.resumeChilds coro) => coro = none ∧ s.running = none
  | _ => True

instance (s : State) (a : Act) : Decidable (TreeDriven s a) := by
  induction a using Act.casesOn with
  | lib => exact instDecidableTrue
  | user u => induction u using User.casesOn <;> unfold TreeDriven <;> infer_instance

/-! ## The invariant -/

/-- Where the coroutines are; `path` are those that a pass holds. -/
structure Forest (s : Sched) (path : List CoroId) : Prop where
  onPath : ∀ c ∈ path, c ∈ s.pool ∧ s.attached c = true
  listed : ∀ owner, ∀ c ∈ s.coroChilds owner,
    c ∈ s.pool ∧ s.attached c = true ∧ s.coroParent c = owner ∧ c ∉ path
  nodup : ∀ owner, (s.coroChilds owner).Nodup
  placed : ∀ c ∈ s.pool, s.attached c = true → c ∈ path ∨ c ∈ s.coroChilds (s.coroParent c)
  orphan : ∀ c ∈ s.pool, s.attached c = false →
    s.stat c = coroStatInit ∧ s.coroParent c = none
  parent : ∀ c ∈ s.pool, ∀ p, s.coroParent c = some p →
    p ∈ s.pool ∧ s.attached p = true ∧ s.stat p ≠ coroStatInit ∧ s.stat p ≠ coroStatDone

/-- `below` are the contexts below the running one. -/
structure Tree (s : Sched) (path : List CoroId) (below : List Ctx) : Prop
    extends Forest s path where
  active : Active s path below
  /-- the other contexts are in no pass -/
  idle : ∀ c ∈ s.pool, some c ∉ s.running :: below → Base (s.stack (some c))

theorem tree_init : Tree Sched.init [] [] where
  onPath := fun _ h => absurd h List.not_mem_nil
  listed := fun _ _ h => absurd h List.not_mem_nil
  nodup := fun _ => List.nodup_nil
  placed := fun _ h => absurd h List.not_mem_nil
  orphan := fun _ h => absurd h List.not_mem_nil
  parent := fun _ h => absurd h List.not_mem_nil
  active := .calls (.main .nil)
  idle := fun _ h => absurd h List.not_mem_nil

namespace Forest

variable {s s' : Sched} {path : List CoroId} {c p : CoroId} {owner : Ctx}

/-- Some states change, of coroutines that are attached. -/
theorem restat (h : Forest s path) (hpool : s'.pool = s.pool)
    (hattached : s'.attached = s.attached) (hchilds : s'.coroChilds = s.coroChilds)
    (hparent : s'.coroParent = s.coroParent)
    (horphan : ∀ c ∈ s.pool, s.attached c = false → s'.stat c = s.stat c)
    (hstat : ∀ c ∈ s.pool, ∀ p, s.coroParent c = some p →
      s'.stat p ≠ coroStatInit ∧ s'.stat p ≠ coroStatDone) : Forest s' path where
  onPath := by rw [hpool, hattached]; exact h.onPath
  listed := by rw [hpool, hattached, hchilds, hparent]; exact h.listed
  nodup := by rw [hchilds]; exact h.nodup
  placed := by rw [hpool, hattached, hchilds, hparent]; exact h.placed
  orphan := by
    rw [hpool, hattached, hparent]
    intro c hc hfree
    rw [horphan c hc hfree]
    exact h.orphan c hc hfree
  parent := by
    rw [hpool, hattached, hparent]
    intro c hc p hp
    have hp' := h.parent c hc p hp
    exact ⟨hp'.1, hp'.2.1, hstat c hc p hp⟩

/-- A list names its owner. -/
theorem owner_eq (h : Forest s path) (hc : c ∈ s.coroChilds owner) : s.coroParent c = owner :=
  (h.listed owner c hc).2.2.1

theorem dead_list (h : Forest s path) (hp : p ∉ s.pool) : s.coroChilds (some p) = [] := by
  apply List.eq_nil_iff_forall_not_mem.mpr
  intro c hc
  have hlive := (h.listed _ c hc).1
  exact hp (h.parent c hlive p (h.owner_eq hc)).1

/-- The pass on the list of `owner` takes its first child. -/
theorem hold {childs : List CoroId} (h : Forest s path)
    (hchilds : s.coroChilds owner = c :: childs) :
    Forest (s.setChilds owner childs) (c :: path) := by
  have hfront : c ∈ s.coroChilds owner := hchilds ▸ List.mem_cons_self
  have hc := h.listed owner c hfront
  have hnodup : c ∉ childs ∧ childs.Nodup := by
    have hnodup := h.nodup owner
    rw [hchilds] at hnodup
    exact List.nodup_cons.mp hnodup
  constructor
  case onPath => exact List.forall_mem_cons.mpr ⟨⟨hc.1, hc.2.1⟩, h.onPath⟩
  case listed =>
    intro o d hd
    have hother : d ∈ s.coroChilds o ∧ d ≠ c := by
      by_cases ho : o = owner
      · subst ho
        have hd : d ∈ childs := by simpa [Sched.setChilds] using hd
        exact ⟨hchilds ▸ List.mem_cons_of_mem _ hd, fun heq => hnodup.1 (heq ▸ hd)⟩
      · have hd : d ∈ s.coroChilds o := by simpa [Sched.setChilds, ho] using hd
        refine ⟨hd, fun heq => ho ?_⟩
        rw [← h.owner_eq hd, heq]
        exact hc.2.2.1
    obtain ⟨hlive, hattached, hparent, hoff⟩ := h.listed o d hother.1
    exact ⟨hlive, hattached, hparent, List.not_mem_cons_of_ne_of_not_mem hother.2 hoff⟩
  case nodup =>
    intro o
    by_cases ho : o = owner
    · subst ho
      simpa [Sched.setChilds] using hnodup.2
    · simpa [Sched.setChilds, ho] using h.nodup o
  case placed =>
    intro d hd hattached
    by_cases hdc : d = c
    · exact .inl (hdc ▸ List.mem_cons_self)
    · rcases h.placed d hd hattached with hpath | hlist
      · exact .inl (List.mem_cons_of_mem _ hpath)
      · right
        show d ∈ Function.update s.coroChilds owner childs (s.coroParent d)
        by_cases ho : s.coroParent d = owner
        · rw [ho, Function.update_self]
          rw [ho, hchilds] at hlist
          exact (List.mem_cons.mp hlist).resolve_left hdc
        · rwa [Function.update_of_ne ho]
  case orphan => exact h.orphan
  case parent => exact h.parent

/-- The pass puts the child it holds at the end of the list. -/
theorem keep (h : Forest s (c :: path)) (hpath : (c :: path).Nodup) :
    Forest (s.setChilds (s.coroParent c) (s.coroChilds (s.coroParent c) ++ [c])) path := by
  have hc := h.onPath c List.mem_cons_self
  have hmem : ∀ o d, d ∈ (s.setChilds (s.coroParent c)
      (s.coroChilds (s.coroParent c) ++ [c])).coroChilds o ↔
        d ∈ s.coroChilds o ∨ o = s.coroParent c ∧ d = c := by
    intro o d
    by_cases ho : o = s.coroParent c
    · simp [Sched.setChilds, ho]
    · simp [Sched.setChilds, ho]
  constructor
  case onPath => exact fun d hd => h.onPath d (List.mem_cons_of_mem _ hd)
  case listed =>
    intro o d hd
    rcases (hmem o d).mp hd with hd | ⟨rfl, rfl⟩
    · obtain ⟨hlive, hattached, hparent, hoff⟩ := h.listed o d hd
      exact ⟨hlive, hattached, hparent, fun hin => hoff (List.mem_cons_of_mem _ hin)⟩
    · exact ⟨hc.1, hc.2, rfl, (List.nodup_cons.mp hpath).1⟩
  case nodup =>
    intro o
    by_cases ho : o = s.coroParent c
    · subst ho
      have hoff : c ∉ s.coroChilds (s.coroParent c) := fun hin =>
        (h.listed _ c hin).2.2.2 List.mem_cons_self
      have hlist : (s.coroChilds (s.coroParent c) ++ [c]).Nodup :=
        (List.perm_append_singleton c _).nodup_iff.mpr
          (List.nodup_cons.mpr ⟨hoff, h.nodup (s.coroParent c)⟩)
      simpa [Sched.setChilds] using hlist
    · simpa [Sched.setChilds, ho] using h.nodup o
  case placed =>
    intro d hd hattached
    rcases h.placed d hd hattached with hin | hlist
    · rcases List.mem_cons.mp hin with rfl | hin
      · exact .inr ((hmem _ _).mpr (.inr ⟨rfl, rfl⟩))
      · exact .inl hin
    · exact .inr ((hmem _ _).mpr (.inl hlist))
  case orphan => exact h.orphan
  case parent => exact h.parent

/-- The pass destroys the child it holds, which is in DONE. -/
theorem drop (h : Forest s (c :: path)) (hpath : (c :: path).Nodup)
    (hpool : s.pool.Nodup) (hdone : s.stat c = coroStatDone) : Forest (s.destroy c) path := by
  have hkeep : ∀ d ∈ s.pool, d ≠ c → d ∈ (s.destroy c).pool := fun d hd hdc =>
    (List.mem_erase_of_ne hdc).mpr hd
  constructor
  case onPath =>
    intro d hd
    obtain ⟨hlive, hattached⟩ := h.onPath d (List.mem_cons_of_mem _ hd)
    have hdc : d ≠ c := fun heq => (List.nodup_cons.mp hpath).1 (heq ▸ hd)
    exact ⟨hkeep d hlive hdc, hattached⟩
  case listed =>
    intro o d hd
    obtain ⟨hlive, hattached, hparent, hoff⟩ := h.listed o d hd
    obtain ⟨hdc, hoff⟩ := List.ne_and_not_mem_of_not_mem_cons hoff
    exact ⟨hkeep d hlive hdc, hattached, hparent, hoff⟩
  case nodup => exact h.nodup
  case placed =>
    intro d hd hattached
    obtain ⟨hdc, hd⟩ := hpool.mem_erase_iff.mp hd
    rcases h.placed d hd hattached with hin | hlist
    · exact .inl ((List.mem_cons.mp hin).resolve_left hdc)
    · exact .inr hlist
  case orphan => exact fun d hd => h.orphan d (List.mem_of_mem_erase hd)
  case parent =>
    intro d hd p hp
    obtain ⟨hplive, hattached, hinit, hpdone⟩ := h.parent d (List.mem_of_mem_erase hd) p hp
    have hpc : p ≠ c := by
      rintro rfl
      exact hpdone hdone
    exact ⟨hkeep p hplive hpc, hattached, hinit, hpdone⟩

theorem construct (h : Forest s path) (hc : c ∉ s.pool) : Forest (s.construct c) path := by
  have hold : ∀ d ∈ s.pool, d ≠ c := fun d hd heq => hc (heq ▸ hd)
  have hlist : ∀ o, (s.construct c).coroChilds o = s.coroChilds o := by
    intro o
    by_cases ho : o = some c
    · rw [ho, h.dead_list hc]
      exact Function.update_self ..
    · exact Function.update_of_ne ho ..
  have hsame : ∀ d ∈ s.pool, (s.construct c).attached d = s.attached d ∧
      (s.construct c).coroParent d = s.coroParent d ∧ (s.construct c).stat d = s.stat d :=
    fun d hd => ⟨Function.update_of_ne (hold d hd) .., Function.update_of_ne (hold d hd) ..,
      Function.update_of_ne (hold d hd) ..⟩
  constructor
  case onPath =>
    intro d hd
    obtain ⟨hlive, hattached⟩ := h.onPath d hd
    exact ⟨List.mem_cons_of_mem _ hlive, (hsame d hlive).1.trans hattached⟩
  case listed =>
    intro o d hd
    rw [hlist] at hd
    obtain ⟨hlive, hattached, hparent, hoff⟩ := h.listed o d hd
    exact ⟨List.mem_cons_of_mem _ hlive, (hsame d hlive).1.trans hattached,
      (hsame d hlive).2.1.trans hparent, hoff⟩
  case nodup => exact fun o => (hlist o).symm ▸ h.nodup o
  case placed =>
    intro d hd hattached
    rcases List.mem_cons.mp hd with rfl | hd
    · rw [show (s.construct d).attached d = false from Function.update_self ..] at hattached
      cases hattached
    · rw [(hsame d hd).1] at hattached
      rw [hlist, (hsame d hd).2.1]
      exact h.placed d hd hattached
  case orphan =>
    intro d hd hfree
    rcases List.mem_cons.mp hd with rfl | hd
    · exact ⟨Function.update_self .., Function.update_self ..⟩
    · rw [(hsame d hd).1] at hfree
      rw [(hsame d hd).2.1, (hsame d hd).2.2]
      exact h.orphan d hd hfree
  case parent =>
    intro d hd p hp
    rcases List.mem_cons.mp hd with rfl | hd
    · rw [show (s.construct d).coroParent d = none from Function.update_self ..] at hp
      cases hp
    · rw [(hsame d hd).2.1] at hp
      obtain ⟨hplive, hattached, hinit, hdone⟩ := h.parent d hd p hp
      rw [(hsame p hplive).1, (hsame p hplive).2.2]
      exact ⟨List.mem_cons_of_mem _ hplive, hattached, hinit, hdone⟩

/-- `child` puts a coroutine that has not run yet on the list of `owner`. -/
theorem attach (h : Forest s path) (hc : c ∈ s.pool) (hfree : s.attached c = false)
    (howner : ∀ p, owner = some p → p ∈ s.pool ∧ s.attached p = true ∧
      s.stat p ≠ coroStatInit ∧ s.stat p ≠ coroStatDone)
    (hpool : s'.pool = s.pool) (hstat : s'.stat = s.stat)
    (hattached : s'.attached = Function.update s.attached c true)
    (hchilds : s'.coroChilds =
      Function.update s.coroChilds owner (s.coroChilds owner ++ [c]))
    (hparent : s'.coroParent = Function.update s.coroParent c owner) : Forest s' path := by
  have hpath : c ∉ path := fun hin => by
    rw [(h.onPath c hin).2] at hfree
    cases hfree
  have hlist : ∀ o, c ∉ s.coroChilds o := fun o hin => by
    rw [(h.listed o c hin).2.1] at hfree
    cases hfree
  have hkeep : ∀ p, s.attached p = true → s'.attached p = true := by
    intro p hp
    rw [hattached, Function.update_apply]
    split
    · rfl
    · exact hp
  have hold : ∀ d, d ≠ c → s'.coroParent d = s.coroParent d := fun d hdc => by
    rw [hparent, Function.update_of_ne hdc]
  have hnew : s'.coroParent c = owner := by rw [hparent, Function.update_self]
  have hmem : ∀ o d, d ∈ s'.coroChilds o ↔ d ∈ s.coroChilds o ∨ o = owner ∧ d = c := by
    intro o d
    rw [hchilds]
    by_cases ho : o = owner
    · simp [ho]
    · simp [ho]
  constructor
  case onPath =>
    intro d hd
    exact ⟨hpool ▸ (h.onPath d hd).1, hkeep d (h.onPath d hd).2⟩
  case listed =>
    intro o d hd
    rcases (hmem o d).mp hd with hd | ⟨rfl, rfl⟩
    · obtain ⟨hlive, hatt, hpar, hoff⟩ := h.listed o d hd
      have hdc : d ≠ c := fun heq => hlist o (heq ▸ hd)
      exact ⟨hpool ▸ hlive, hkeep d hatt, (hold d hdc).trans hpar, hoff⟩
    · exact ⟨hpool ▸ hc, by rw [hattached, Function.update_self], hnew, hpath⟩
  case nodup =>
    intro o
    rw [hchilds]
    by_cases ho : o = owner
    · subst ho
      rw [Function.update_self]
      exact (List.perm_append_singleton c _).nodup_iff.mpr
        (List.nodup_cons.mpr ⟨hlist o, h.nodup o⟩)
    · rw [Function.update_of_ne ho]
      exact h.nodup o
  case placed =>
    intro d hd hatt
    by_cases hdc : d = c
    · exact .inr ((hmem _ _).mpr (.inr ⟨hdc ▸ hnew, hdc⟩))
    · rw [hattached, Function.update_of_ne hdc] at hatt
      rw [hold d hdc]
      rcases h.placed d (hpool ▸ hd) hatt with hin | hin
      · exact .inl hin
      · exact .inr ((hmem _ _).mpr (.inl hin))
  case orphan =>
    intro d hd hatt
    have hdc : d ≠ c := by
      rintro rfl
      rw [hattached, Function.update_self] at hatt
      cases hatt
    rw [hattached, Function.update_of_ne hdc] at hatt
    rw [hstat, hold d hdc]
    exact h.orphan d (hpool ▸ hd) hatt
  case parent =>
    intro d hd p hp
    have hp' : p ∈ s.pool ∧ s.attached p = true ∧ s.stat p ≠ coroStatInit ∧
        s.stat p ≠ coroStatDone := by
      by_cases hdc : d = c
      · exact howner p (by rw [← hp, hdc, hnew])
      · exact h.parent d (hpool ▸ hd) p ((hold d hdc).symm.trans hp)
    rw [hpool, hstat]
    exact ⟨hp'.1, hkeep p hp'.2.1, hp'.2.2⟩

end Forest

/-! ## One step -/

namespace Tree

variable {s s' : Sched} {path : List CoroId} {below : List Ctx} {rest fs gs : List Frame}
  {c q : CoroId} {cur : Ctx} {loop : Nat} {pc : ResumePc}

theorem idle_of (h : Tree s path below) (hpool : ∀ c ∈ s'.pool, c ∈ s.pool)
    (hrun : s'.running = s.running) (hstack : ∀ x, x ≠ s.running → s'.stack x = s.stack x) :
    ∀ c ∈ s'.pool, some c ∉ s'.running :: below → Base (s'.stack (some c)) := by
  intro c hc hother
  rw [hrun] at hother
  have hne : some c ≠ s.running := fun heq => hother (heq ▸ List.mem_cons_self)
  rw [hstack _ hne]
  exact h.idle c (hpool c hc) hother

/-- Only the stack of the running context changes. -/
theorem restack (h : Tree s path below) (hactive : Active (s.setStack gs) path below) :
    Tree (s.setStack gs) path below where
  toForest := { h.toForest with }
  active := hactive
  idle := h.idle_of (fun _ hc => hc) rfl fun _ hx => Function.update_of_ne hx ..

theorem top_setStack (s : Sched) (gs : List Frame) :
    (s.setStack gs).stack (s.setStack gs).running = gs := Function.update_self ..

/-- The running context goes on in no pass of its own. -/
theorem rebase (h : Tree s path below) (hfs : Base (s.stack s.running)) (hgs : Base gs) :
    Tree (s.setStack gs) path below := by
  apply h.restack
  apply Active.calls
  rw [top_setStack]
  exact (h.active.spine_of_base hfs).setStack.rebase hfs hgs

/-- `resume` returns to its pass. -/
theorem resumeReturn (h : Tree s path below)
    (htop : s.stack s.running = .resume s.running c pc :: rest) :
    Tree (s.setStack rest) path below := by
  obtain ⟨loop, fs, path', rfl, rfl, hloop, hparent, hspine⟩ :=
    (h.active.spine_of_resume htop).of_resume
  exact h.restack (.back (top_setStack s _) hloop hparent hspine.setStack)

/-- `resume` goes on to its next place. -/
theorem advance {pc' : ResumePc} (h : Tree s path below)
    (htop : s.stack s.running = .resume s.running c pc :: rest) :
    Tree (s.setStack (.resume s.running c pc' :: rest)) path below := by
  apply h.restack
  apply Active.calls
  rw [top_setStack]
  exact (h.active.spine_of_resume htop).advance.setStack

/-- A pass starts on the list of the innermost coroutine of the path. -/
theorem enter (h : Tree s path below)
    (hspine : Spine s s.running (s.stack s.running) path below) :
    Tree (s.push (.resumeChilds s.running path.head? (s.coroChilds path.head?).length none))
      path below :=
  h.restack (.pass (top_setStack s _) (Nat.le_refl _) hspine.setStack)

/-- A pass ends. -/
theorem passEnd (h : Tree s path below)
    (htop : s.stack s.running = .resumeChilds s.running cur loop none :: rest) :
    Tree (s.setStack rest) path below := by
  obtain ⟨_, _, hspine⟩ := h.active.spine_of_turn htop
  apply h.restack
  apply Active.calls
  rw [top_setStack]
  exact hspine.setStack

/-- A change of the list that the innermost pass goes over. -/
theorem spine_setChilds {l : List CoroId} (hspine : Spine s s.running fs path below) :
    Spine (s.setChilds path.head? l) s.running fs path below := by
  refine hspine.congr (fun _ _ => rfl) (fun _ _ => rfl) (fun _ _ => rfl) fun c hc => ?_
  -- the owner of an outer pass comes later on the path
  have hne : s.coroParent c ≠ path.head? := hspine.parents.next_ne_start hc
  have hkept : (s.setChilds path.head? l).coroChilds (s.coroParent c) =
      s.coroChilds (s.coroParent c) := Function.update_of_ne hne ..
  exact Nat.le_of_eq (congrArg List.length hkept.symm)

/-- The pass takes the first child of its list to resume it. -/
theorem passHold {childs : List CoroId} (h : Tree s path below)
    (htop : s.stack s.running = .resumeChilds s.running cur (loop + 1) none :: rest)
    (hchilds : s.coroChilds cur = c :: childs) :
    Tree ((s.setChilds cur childs).setStack
      (.resume s.running c .entry :: .resumeChilds s.running cur loop (some c) :: rest))
      (c :: path) below := by
  obtain ⟨rfl, hloop, hspine⟩ := h.active.spine_of_turn htop
  have hparent : s.coroParent c = path.head? := h.owner_eq (hchilds ▸ List.mem_cons_self)
  rw [hchilds, List.length_cons] at hloop
  constructor
  case toForest => exact { h.toForest.hold hchilds with }
  case active =>
    apply Active.calls
    rw [top_setStack]
    refine .held ?_ hparent (spine_setChilds hspine).setStack
    show loop ≤ (Function.update s.coroChilds path.head? childs path.head?).length
    rw [Function.update_self]
    omega
  case idle => exact h.idle_of (fun _ hc => hc) rfl fun _ hx => Function.update_of_ne hx ..

/-- The pass destroys the first child of its list. -/
theorem passDestroy {childs : List CoroId} (h : Tree s path below) (hpool : s.pool.Nodup)
    (htop : s.stack s.running = .resumeChilds s.running cur (loop + 1) none :: rest)
    (hchilds : s.coroChilds cur = c :: childs) (hdone : s.stat c = coroStatDone) :
    Tree (((s.setChilds cur childs).destroy c).setStack
      (.resumeChilds s.running cur loop none :: rest)) path below := by
  obtain ⟨rfl, hloop, hspine⟩ := h.active.spine_of_turn htop
  have hoff : c ∉ path := (h.listed _ c (hchilds ▸ List.mem_cons_self)).2.2.2
  have hforest := (h.toForest.hold hchilds).drop
    (List.nodup_cons.mpr ⟨hoff, hspine.nodup⟩) hpool hdone
  rw [hchilds, List.length_cons] at hloop
  have hspine' : Spine ((s.setChilds path.head? childs).destroy c) s.running rest path below :=
    (spine_setChilds hspine).congr (fun _ _ => rfl) (fun _ _ => rfl) (fun _ _ => rfl)
      fun _ _ => Nat.le_refl _
  constructor
  case toForest => exact { hforest with }
  case active =>
    refine .pass (top_setStack _ _) ?_ hspine'.setStack
    show loop ≤ (Function.update s.coroChilds path.head? childs path.head?).length
    rw [Function.update_self]
    omega
  case idle =>
    exact h.idle_of (fun _ hc => List.mem_of_mem_erase hc) rfl
      fun _ hx => Function.update_of_ne hx ..

/-- The pass puts back the child it has resumed. -/
theorem passKeep (h : Tree s path below)
    (htop : s.stack s.running = .resumeChilds s.running cur loop (some c) :: rest) :
    ∃ path', path = c :: path' ∧
      Tree ((s.setChilds cur (s.coroChilds cur ++ [c])).setStack
        (.resumeChilds s.running cur loop none :: rest)) path' below := by
  obtain ⟨path', rfl, hcur, hloop, hparent, hspine⟩ := h.active.spine_of_back htop
  have hforest := h.toForest.keep h.active.parents.nodup
  rw [hparent] at hforest
  subst hcur
  refine ⟨path', rfl, { hforest with }, ?_, ?_⟩
  · refine .pass (top_setStack _ _) ?_ (spine_setChilds hspine).setStack
    show loop ≤ (Function.update s.coroChilds path'.head? _ path'.head?).length
    rw [Function.update_self, List.length_append]
    omega
  · exact h.idle_of (fun _ hc => hc) rfl fun _ hx => Function.update_of_ne hx ..

/-- The pass destroys the child it has resumed. -/
theorem passDrop (h : Tree s path below) (hpool : s.pool.Nodup)
    (htop : s.stack s.running = .resumeChilds s.running cur loop (some c) :: rest)
    (hdone : s.stat c = coroStatDone) :
    ∃ path', path = c :: path' ∧
      Tree ((s.destroy c).setStack (.resumeChilds s.running cur loop none :: rest))
        path' below := by
  obtain ⟨path', rfl, rfl, hloop, hparent, hspine⟩ := h.active.spine_of_back htop
  have hforest := h.toForest.drop h.active.parents.nodup hpool hdone
  have hspine' : Spine (s.destroy c) s.running rest path' below :=
    hspine.congr (fun _ _ => rfl) (fun _ _ => rfl) (fun _ _ => rfl) fun _ _ => Nat.le_refl _
  refine ⟨path', rfl, { hforest with }, .pass (top_setStack _ _) hloop hspine'.setStack, ?_⟩
  exact h.idle_of (fun _ hc => List.mem_of_mem_erase hc) rfl
    fun _ hx => Function.update_of_ne hx ..

/-! ### Switches of context -/

/-- The coroutine that `resume` is about to resume is in no pass of its own. -/
theorem resumed_off (h : Tree s path below)
    (htop : s.stack s.running = .resume s.running c pc :: rest) :
    some c ∉ s.running :: below := by
  obtain ⟨_, _, path', _, rfl, _, _, hspine⟩ := (h.active.spine_of_resume htop).of_resume
  exact fun hin => (List.nodup_cons.mp h.active.parents.nodup).1 (hspine.mem_path hin)

theorem switchTo (h : Tree s path below)
    (htop : s.stack s.running = .resume s.running c .back :: rest) :
    Tree (s.switchTo c) path (s.running :: below) := by
  have hspine := h.active.spine_of_resume htop
  have hoff := h.resumed_off htop
  obtain ⟨_, _, path', _, rfl, _⟩ := hspine.of_resume
  have hc := h.onPath c List.mem_cons_self
  have hkeep : ∀ x, x ≠ some c → (s.switchTo c).stack x = s.stack x := fun x hx => by
    rw [SchedInv.switchTo_stack, if_neg fun hx' => hx hx'.1]
  have hbelow : ∀ x ∈ s.running :: below, x ≠ some c := fun x hx heq => hoff (heq ▸ hx)
  constructor
  case toForest =>
    refine h.toForest.restat rfl rfl rfl rfl (fun d _ hfree => ?_) fun d hd p hp => ?_
    · have hdc : d ≠ c := by
        rintro rfl
        rw [hc.2] at hfree
        cases hfree
      have hrun : s.running ≠ some d := by
        intro hrun
        have hd := (h.onPath d (h.active.mem_path (hrun ▸ List.mem_cons_self))).2
        rw [hd] at hfree
        cases hfree
      rw [SchedInv.switchTo_stat, if_neg hrun, if_neg hdc]
    · rw [SchedInv.switchTo_stat]
      split
      · decide
      · split
        · decide
        · exact (h.parent d hd p hp).2.2
  case active =>
    apply Active.calls
    show Spine (s.switchTo c) (some c) ((s.switchTo c).stack (some c)) _ _
    have htop' : (s.switchTo c).stack s.running = .resume s.running c .back :: rest :=
      (hkeep _ (hbelow _ List.mem_cons_self)).trans htop
    refine .coro ?_ (Function.update_self ..) htop' ?_
    · rw [SchedInv.switchTo_stack]
      split
      · exact .cons rfl .nil
      · exact h.idle c hc.1 hoff
    · refine hspine.congr (fun d hd => ?_) (fun _ _ => rfl) (fun y hy => ?_)
        fun _ _ => Nat.le_refl _
      · have hdc : d ≠ c := fun heq => hbelow _ hd (congrArg some heq)
        exact Function.update_of_ne hdc ..
      · exact hkeep y (hbelow y (List.mem_cons_of_mem _ hy))
  case idle =>
    intro d hd hother
    have hother : some d ∉ some c :: s.running :: below := hother
    obtain ⟨hdc, hother⟩ := List.ne_and_not_mem_of_not_mem_cons hother
    rw [hkeep _ hdc]
    exact h.idle d hd hother

/-- The running coroutine `q` gives control to its resumer; it is left in state
`v` with the stack `gs`. -/
theorem leave {v : StatT} (h : Tree s path below) (hrun : s.running = some q)
    (hfs : Base (s.stack s.running)) (hgs : Base gs)
    (hleft : v = coroStatWait ∨ s.coroChilds (some q) = [])
    (hne : v ≠ coroStatInit)
    (hstat : ∀ d, s'.stat d =
      if s.coroPre q = some d then coroStatBusy else if d = q then v else s.stat d)
    (hs' : s' = { s with
      stat := s'.stat
      currentCoroutine := s.coroPre q
      running := s.coroPre q
      stack := Function.update s.stack (some q) gs }) :
    ∃ below', below = s.coroPre q :: below' ∧ Tree s' path below' := by
  have hspine := h.active.spine_of_base hfs
  have hpath := hspine.parents
  have hnodup := hspine.contexts_nodup
  rw [hrun] at hspine hnodup
  rw [hrun] at hfs
  generalize s.stack (some q) = fs at hspine hfs
  cases hspine with
  | held => cases hfs.top
  | @coro _ y _ rest path' below' hbase hpre htop hrest =>
      have hother : ∀ x, x ≠ some q → s'.stack x = s.stack x := fun x hx => by
        rw [hs']
        exact Function.update_of_ne hx ..
      have hoff : ∀ x ∈ y :: below', x ≠ some q := fun x hx heq =>
        (List.nodup_cons.mp hnodup).1 (heq ▸ hx)
      have hq := h.onPath q List.mem_cons_self
      refine ⟨below', by rw [hpre], ?_, ?_, ?_⟩
      · refine h.toForest.restat (by rw [hs']) (by rw [hs']) (by rw [hs']) (by rw [hs'])
          (fun d _ hfree => ?_) fun d hd p hp => ?_
        · have hheld : ∀ e, e ∈ q :: path' → d ≠ e := by
            rintro e he rfl
            rw [(h.onPath d he).2] at hfree
            cases hfree
          have hpred : s.coroPre q ≠ some d := fun hd =>
            hheld d (hrest.mem_path (by rw [← hd, hpre]; exact List.mem_cons_self)) rfl
          rw [hstat, if_neg hpred, if_neg (hheld q List.mem_cons_self)]
        · rw [hstat]
          split
          · decide
          · split
            next hpq =>
              refine ⟨hne, ?_⟩
              rcases hleft with rfl | hchilds
              · decide
              · -- nobody has the coroutine that finishes as parent
                exfalso
                subst hpq
                have hattached : s.attached d = true := by
                  by_contra hfree
                  rw [(h.orphan d hd (by simpa using hfree)).2] at hp
                  cases hp
                rcases h.placed d hd hattached with hin | hin
                · exact hpath.next_ne_start hin hp
                · rw [hp, hchilds] at hin
                  cases hin
            next => exact (h.parent d hd p hp).2.2
      · apply Active.calls
        have hrunning : s'.running = y := by rw [hs', hpre]
        rw [hrunning, hother y (hoff y List.mem_cons_self), htop]
        refine hrest.congr (fun _ _ => by rw [hs']) (fun _ _ => by rw [hs']) (fun x hx => ?_)
          fun _ _ => Nat.le_of_eq (by rw [hs'])
        exact hother x (hoff x (List.mem_cons_of_mem _ hx))
      · intro d hd hd'
        rw [hs', hpre] at hd'
        by_cases hdq : d = q
        · subst hdq
          rw [hs']
          simpa using hgs
        · rw [hother _ fun heq => hdq (Option.some.inj heq)]
          have hlive : d ∈ s.pool := by
            rw [hs'] at hd
            exact hd
          refine h.idle d hlive ?_
          rw [hrun]
          exact List.not_mem_cons_of_ne_of_not_mem (fun heq => hdq (Option.some.inj heq)) hd'

/-! ### Constructing and attaching -/

theorem construct (h : Tree s path below) (hc : c ∉ s.pool) :
    Tree (s.construct c) path below := by
  have hpath : c ∉ path := fun hin => hc (h.onPath c hin).1
  have hother : ∀ x ∈ s.running :: below, x ≠ some c := fun x hx heq =>
    hpath (h.active.mem_path (heq ▸ hx))
  constructor
  case toForest => exact h.toForest.construct hc
  case active =>
    refine h.active.congr rfl ?_ (fun d hd => ?_) (fun d hd => ?_) (fun x hx => ?_) fun x => ?_
    · exact Function.update_of_ne (hother _ List.mem_cons_self) ..
    · have hdc : d ≠ c := fun heq => hother _ hd (congrArg some heq)
      exact Function.update_of_ne hdc ..
    · have hdc : d ≠ c := fun heq => hpath (heq ▸ hd)
      exact Function.update_of_ne hdc ..
    · exact Function.update_of_ne (hother x (List.mem_cons_of_mem _ hx)) ..
    · by_cases hx : x = some c
      · rw [hx, h.dead_list hc]
        exact Nat.zero_le _
      · have hkept : (s.construct c).coroChilds x = s.coroChilds x := Function.update_of_ne hx ..
        exact Nat.le_of_eq (congrArg List.length hkept.symm)
  case idle =>
    intro d hd hother
    by_cases hdc : d = c
    · rw [hdc, show (s.construct c).stack (some c) = [] from Function.update_self ..]
      exact .nil
    · rw [show (s.construct c).stack (some d) = s.stack (some d) from
        Function.update_of_ne (fun heq => hdc (Option.some.inj heq)) ..]
      exact h.idle d ((List.mem_cons.mp hd).resolve_left hdc) hother

theorem attach (h : Tree s path below) (hinv : SchedInv s) (hc : c ∈ s.pool)
    (hfree : s.attached c = false) :
    Tree (Sched.setChilds { s with
      coroParent :=
        match s.running with
        | none => s.coroParent
        | some p => Function.update s.coroParent c (some p)
      attached := Function.update s.attached c true }
      s.running (s.coroChilds s.running ++ [c])) path below := by
  have hparent : (match s.running with
      | none => s.coroParent
      | some p => Function.update s.coroParent c (some p)) =
      Function.update s.coroParent c s.running := by
    cases s.running with
    | none =>
        have hsame := Function.update_eq_self c s.coroParent
        rw [(h.orphan c hc hfree).2] at hsame
        exact hsame.symm
    | some p => rfl
  have hpath : c ∉ path := fun hin => by
    rw [(h.onPath c hin).2] at hfree
    cases hfree
  rw [hparent]
  constructor
  case toForest =>
    refine h.toForest.attach hc hfree (fun p hp => ?_) rfl rfl rfl rfl rfl
    have hbusy := (hinv.busy p (hinv.live p hp)).mpr hp
    obtain ⟨hlive, hattached⟩ := h.onPath p (h.active.mem_path (hp ▸ List.mem_cons_self))
    rw [hbusy]
    exact ⟨hlive, hattached, by decide, by decide⟩
  case active =>
    refine h.active.congr rfl rfl (fun _ _ => rfl) (fun d hd => ?_) (fun _ _ => rfl) fun x => ?_
    · have hdc : d ≠ c := fun heq => hpath (heq ▸ hd)
      exact Function.update_of_ne hdc ..
    · show _ ≤ (Function.update s.coroChilds s.running _ x).length
      by_cases hx : x = s.running
      · rw [hx, Function.update_self, List.length_append]
        omega
      · exact Nat.le_of_eq (congrArg List.length (Function.update_of_ne hx ..).symm)
  case idle => exact h.idle_of (fun _ hd => hd) rfl fun _ _ => rfl

end Tree

end BoostCoro.Coroutine
