import BoostCoro.Coroutine.ResumerChain
import BoostCoro.Coroutine.TreeTour
import Mathlib.Data.List.Perm.Basic
import Mathlib.Data.List.Perm.Subperm
/-!
# Ownership of children

In a tree-driven run each attached coroutine is in one place: once in the list of
its owner, or held by one pass in progress on that list. It is destroyed at most
once, in DONE and without children, and nothing refers to it afterwards.
-/

namespace BoostCoro.Coroutine

open Walk (Chain)

/-! ## The resumer chain of a tree -/

namespace Tree

variable {s s' : State} {a : Act} {evs : List Obs} {path : List CoroId} {below : List Ctx}
  {rest : List Frame}

theorem chain_live (h : Tree s.toSched path below) :
    ∃ chain, Chain s.coroPre s.running chain ∧ s.running :: below = chain.map some ++ [none] ∧
      ∀ c ∈ chain, c ∈ s.pool := by
  obtain ⟨chain, hchain, hbelow, hpath⟩ := h.active.contexts
  exact ⟨chain, hchain, hbelow, fun c hc => (h.onPath c (hpath c hc)).1⟩

/-- The resumer chain of a tree is made of the contexts below the running one. -/
theorem resumerChain (h : Tree s.toSched path below) (hinv : SchedInv s.toSched) :
    ∃ chain, ResumerChain s.toSched chain ∧ s.running :: below = chain.map some ++ [none] := by
  obtain ⟨chain, hchain, hbelow, hlive⟩ := h.chain_live
  refine ⟨chain, ⟨hchain, fun c hc => ⟨hlive c hc, fun hrun => ?_⟩⟩, hbelow⟩
  have hin : some c ∈ s.running :: below := by
    rw [hbelow]
    exact List.mem_append_left _ (List.mem_map_of_mem hc)
  obtain ⟨_, _, htop⟩ :=
    h.active.below_top ((List.mem_cons.mp hin).resolve_left fun heq => hrun heq.symm)
  rcases hinv.stat c (hlive c hc) with hstat | hstat | hstat | hstat
  · rw [(hinv.fresh c (hlive c hc)).mp hstat] at htop
    cases htop
  · exact hstat
  · exact absurd ((hinv.busy c (hlive c hc)).mp hstat) hrun
  · rw [hinv.finished c (hlive c hc) hstat] at htop
    cases htop

theorem resumers_subset (h : Tree s.toSched path below) (hinv : SchedInv s.toSched) :
    s.resumers ⊆ path := by
  obtain ⟨chain, hchain, hbelow⟩ := h.resumerChain hinv
  intro c hc
  rw [hchain.resumers_eq] at hc
  apply h.active.mem_path
  rw [hbelow]
  exact List.mem_append_left _ (List.mem_map_of_mem hc)

/-- A pass resumes no coroutine that is suspended in a pass. -/
theorem transfersOffChain (h : Tree s.toSched path below) (hinv : SchedInv s.toSched) :
    TransfersOffChain s a := by
  cases a with
  | user u => trivial
  | lib =>
      unfold TransfersOffChain
      dsimp only
      split
      next self c rest htop =>
        right
        obtain ⟨chain, hchain, hbelow⟩ := h.resumerChain hinv
        rw [hchain.resumers_eq]
        intro hc
        have hst : Stacked s.running (.resume self c .transfer :: rest) :=
          htop ▸ hinv.stacked s.running
        obtain rfl : self = s.running := hst.owned
        apply h.resumed_off htop
        rw [hbelow]
        exact List.mem_append_left _ (List.mem_map_of_mem hc)
      next => trivial

end Tree

/-! ## The children that passes hold -/

/-- The children that the passes over the list of `owner` hold in a stack. -/
def heldIn (owner : Ctx) (fs : List Frame) : List CoroId :=
  fs.filterMap fun
    | .resumeChilds _ cur _ (some d) => if cur = owner then some d else none
    | _ => none

/-- The children that the passes in progress over the list of `owner` hold. -/
def Sched.held (s : Sched) (owner : Ctx) : List CoroId :=
  (none :: s.pool.map some).flatMap fun x => heldIn owner (s.stack x)

variable {s s' : State} {a : Act} {evs tr : List Obs} {path : List CoroId} {below : List Ctx}
  {owner : Ctx} {c : CoroId} {fs : List Frame}

theorem heldIn_base (h : Base fs) : heldIn owner fs = [] := by
  apply List.filterMap_eq_nil_iff.mpr
  intro f hf
  have hpass := h f hf
  cases f with
  | resumeChilds => cases hpass
  | _ => rfl

theorem heldIn_turn {self cur : Ctx} {loop : Nat} {d : CoroId} :
    heldIn owner (.resumeChilds self cur loop (some d) :: fs) =
      if cur = owner then d :: heldIn owner fs else heldIn owner fs := by
  unfold heldIn
  by_cases hcur : cur = owner
  · simp [hcur]
  · simp [hcur]

theorem Spine.heldIn_eq {t : Sched} {x : Ctx} (h : Spine t x fs path below) :
    heldIn owner fs ++ below.flatMap (fun y => heldIn owner (t.stack y)) =
      path.filter fun c => t.coroParent c = owner := by
  induction h with
  | main hbase =>
      rw [heldIn_base hbase]
      rfl
  | coro hbase _ htop _ ih =>
      rw [heldIn_base hbase, List.nil_append, List.flatMap_cons, htop]
      exact ih
  | @held x d pc fs loop path below _ hparent _ ih =>
      have hskip : heldIn owner (.resume x d pc :: .resumeChilds x path.head? loop (some d) :: fs) =
          heldIn owner (.resumeChilds x path.head? loop (some d) :: fs) := rfl
      rw [hskip, heldIn_turn, List.filter_cons, hparent]
      by_cases howner : path.head? = owner
      · simp only [howner, if_true, decide_true, List.cons_append, ih]
      · simp only [howner, if_false, decide_false, Bool.false_eq_true, ih]

theorem Active.heldIn_eq {t : Sched} (h : Active t path below) :
    (t.running :: below).flatMap (fun y => heldIn owner (t.stack y)) =
      path.filter fun c => t.coroParent c = owner := by
  rw [List.flatMap_cons]
  cases h with
  | calls hspine => exact hspine.heldIn_eq
  | pass htop _ hspine =>
      rw [htop]
      exact hspine.heldIn_eq
  | @back path _ fs loop d htop _ hparent hspine =>
      have ih : heldIn owner fs ++ below.flatMap (fun y => heldIn owner (t.stack y)) =
          path.filter fun c => t.coroParent c = owner := hspine.heldIn_eq
      rw [htop, heldIn_turn, List.filter_cons, hparent]
      by_cases howner : path.head? = owner
      · simp only [howner, if_true, decide_true, List.cons_append, ih]
      · simp only [howner, if_false, decide_false, Bool.false_eq_true, ih]

/-- The coroutines of the path are those that passes hold. -/
theorem Tree.held_perm (h : Tree s.toSched path below) (hinv : SchedInv s.toSched) :
    (s.held owner).Perm (path.filter fun c => s.coroParent c = owner) := by
  have hsub : (s.running :: below) ⊆ none :: s.pool.map some := by
    intro x hx
    cases x with
    | none => exact List.mem_cons_self
    | some d =>
        exact List.mem_cons_of_mem _
          (List.mem_map_of_mem (h.onPath d (h.active.mem_path hx)).1)
  obtain ⟨l, hl, hlsub⟩ := h.active.contexts_nodup.subperm hsub
  obtain ⟨rest, hrest⟩ := hlsub.exists_perm_append
  have hperm : (none :: s.pool.map some).Perm (s.running :: below ++ rest) :=
    hrest.trans (hl.append_right rest)
  have hnodup : (s.running :: below ++ rest).Nodup := by
    apply hperm.nodup_iff.mp
    refine List.nodup_cons.mpr ⟨?_, hinv.nodup.map fun _ _ heq => Option.some.inj heq⟩
    intro hin
    obtain ⟨_, _, hnone⟩ := List.mem_map.mp hin
    cases hnone
  have hidle : rest.flatMap (fun x => heldIn owner (s.stack x)) = [] := by
    apply List.flatMap_eq_nil_iff.mpr
    intro x hx
    have hoff : x ∉ s.running :: below := fun hin =>
      (List.nodup_append.mp hnodup).2.2 x hin x hx rfl
    have hmem := hperm.mem_iff.mpr (List.mem_append_right _ hx)
    cases x with
    | none =>
        obtain ⟨_, _, hbelow, _⟩ := h.active.contexts
        rw [hbelow] at hoff
        exact absurd (List.mem_append_right _ List.mem_cons_self) hoff
    | some d =>
        obtain ⟨e, he, hed⟩ := List.mem_map.mp ((List.mem_cons.mp hmem).resolve_left nofun)
        exact heldIn_base (h.idle d (Option.some.inj hed ▸ he) hoff)
  have hflat := hperm.flatMap_right fun x => heldIn owner (s.stack x)
  rw [List.flatMap_append, hidle, List.append_nil, h.active.heldIn_eq] at hflat
  exact hflat

/-! ## Destruction -/

/-- A pass destroys a coroutine in DONE, and does nothing else in that turn. -/
theorem Effect.destroyed (heffect : Effect s a s' evs) (hc : .destroyed c ∈ evs) :
    evs = [.destroyed c] ∧ c ∈ s.pool ∧ s.stat c = coroStatDone ∧
      s'.pool = s.pool.erase c := by
  cases heffect with
  | resumePass _ _ _ _ hpass => exact absurd hc (hpass.only nofun)
  | passDestroy _ _ _ hlive hdone =>
      obtain rfl := Obs.destroyed.inj (List.mem_singleton.mp hc)
      exact ⟨rfl, hlive, hdone, rfl⟩
  | passDrop _ hlive hdone =>
      obtain rfl := Obs.destroyed.inj (List.mem_singleton.mp hc)
      exact ⟨rfl, hlive, hdone, rfl⟩
  | allPass _ _ _ hpass => exact absurd hc (hpass.only nofun)
  | executePass _ _ _ hpass => exact absurd hc (hpass.only nofun)
  | mgetSleep _ _ _ hpass => exact absurd hc (hpass.only nofun)
  | callPass _ hpass => exact absurd hc (hpass.only nofun)
  | callYield _ _ hpass => exact absurd hc (hpass.only nofun)
  | waitCoro _ _ _ _ hpass =>
      rcases List.mem_cons.mp hc with hc | hc
      · cases hc
      · exact absurd hc (hpass.only nofun)
  | quiet _ hquiet => exact absurd (hquiet.events _ hc) Bool.false_ne_true
  | _ => simp at hc

theorem RunOf.destroyed_once {ok : State → Act → Prop} (h : RunOf ok tr s) (c : CoroId) :
    (lifetime c tr).count (.destroyed c) ≤ 1 := by
  have hboth : SchedInv s.toSched ∧ (lifetime c tr).count (.destroyed c) ≤ 1 ∧
      (c ∈ s.pool → (lifetime c tr).count (.destroyed c) = 0) := by
    refine Transition.Run.invariant_trace
      (I := fun tr s => SchedInv s.toSched ∧ (lifetime c tr).count (.destroyed c) ≤ 1 ∧
        (c ∈ s.pool → (lifetime c tr).count (.destroyed c) = 0))
      ?_ h ⟨schedInv_init, Nat.zero_le _, fun _ => rfl⟩
    intro tr s a s' evs hinv _ hstep
    obtain ⟨hsched, hle, hlive⟩ := hinv
    have heffect := hsched.effect hstep
    refine ⟨hsched.step heffect, ?_⟩
    by_cases hnew : .constructed c ∈ evs
    · obtain ⟨rfl, _⟩ := heffect.constructed hnew
      rw [lifetime_constructed]
      exact ⟨Nat.zero_le _, fun _ => rfl⟩
    · rw [lifetime_append tr evs hnew, List.count_append]
      by_cases hdead : .destroyed c ∈ evs
      · obtain ⟨rfl, hc, _, hpool⟩ := heffect.destroyed hdead
        rw [hlive hc]
        refine ⟨by simp, fun hc' => ?_⟩
        rw [hpool] at hc'
        exact absurd rfl (hsched.nodup.mem_erase_iff.mp hc').1
      · rw [List.count_eq_zero_of_not_mem hdead]
        exact ⟨hle, fun hc' => hlive ((heffect.pool hc').resolve_right hnew)⟩
  exact hboth.2.1

/-! ## Ownership is conserved -/

/-- A coroutine in DONE is nobody's parent. -/
theorem Tree.childless (h : Tree s.toSched path below) (hinv : SchedInv s.toSched)
    (hdone : s.stat c = coroStatDone) :
    s.coroChilds (some c) = [] ∧ s.held (some c) = [] := by
  have hnone : ∀ d ∈ s.pool, s.coroParent d ≠ some c := fun d hd hparent =>
    (h.parent d hd c hparent).2.2.2 hdone
  constructor
  · apply List.eq_nil_iff_forall_not_mem.mpr
    intro d hd
    exact hnone d (h.listed _ d hd).1 (h.owner_eq hd)
  · apply List.eq_nil_iff_forall_not_mem.mpr
    intro d hd
    obtain ⟨hpath, hparent⟩ := List.mem_filter.mp ((h.held_perm hinv).mem_iff.mp hd)
    exact hnone d (h.onPath d hpath).1 (by simpa using hparent)

/-- An attached coroutine is once in the list of its owner or held by one pass over
that list, and is nowhere else. -/
theorem Tree.count_eq (h : Tree s.toSched path below) (hinv : SchedInv s.toSched)
    (hc : c ∈ s.pool) (hattached : s.attached c = true) (owner : Ctx) :
    (s.coroChilds owner).count c + (s.held owner).count c =
      if s.coroParent c = owner then 1 else 0 := by
  rw [(h.held_perm hinv).count_eq]
  by_cases howner : s.coroParent c = owner
  · rw [if_pos howner, List.count_filter (by simpa using howner)]
    rcases h.placed c hc hattached with hpath | hlist
    · have hoff : c ∉ s.coroChilds owner := fun hin => (h.listed _ c hin).2.2.2 hpath
      rw [List.count_eq_zero_of_not_mem hoff,
        List.count_eq_one_of_mem h.active.parents.nodup hpath]
    · rw [howner] at hlist
      rw [List.count_eq_one_of_mem (h.nodup owner) hlist,
        List.count_eq_zero_of_not_mem (h.listed _ c hlist).2.2.2]
  · have hlist : c ∉ s.coroChilds owner := fun hin => howner (h.owner_eq hin)
    have hheld : c ∉ path.filter fun c => s.coroParent c = owner := fun hin =>
      howner (by simpa using (List.mem_filter.mp hin).2)
    rw [if_neg howner, List.count_eq_zero_of_not_mem hlist, List.count_eq_zero_of_not_mem hheld]

/-- Child ownership is conserved in every tree-driven run. -/
theorem ownership_conserved (h : RunOf TreeDriven tr s) :
    (∀ c ∈ s.pool, s.attached c = true → ∀ owner,
      (s.coroChilds owner).count c + (s.held owner).count c =
        if s.coroParent c = owner then 1 else 0) ∧
    (∀ owner, ∀ c ∈ s.coroChilds owner ++ s.held owner, c ∈ s.pool) ∧
    (∀ c ∈ s.pool, ∀ p, s.coroParent c = some p → p ∈ s.pool) ∧
    (∃ chain, Chain s.coroPre s.running chain ∧ ∀ c ∈ chain, c ∈ s.pool) ∧
    (∀ a s' evs c, s.step a = some (.ok (s', evs)) → .destroyed c ∈ evs →
      c ∈ s.pool ∧ s.stat c = coroStatDone ∧ s.coroChilds (some c) = [] ∧
        s.held (some c) = [] ∧ c ∉ s'.pool) ∧
    ∀ c, (lifetime c tr).count (.destroyed c) ≤ 1 := by
  have hinv := h.schedInv
  obtain ⟨path, below, htree⟩ := h.tree fun _ _ hok => hok
  obtain ⟨chain, hchain, _, hlive⟩ := htree.chain_live
  refine ⟨fun c hc hattached => htree.count_eq hinv hc hattached, fun owner c hc => ?_,
    fun c hc p hp => (htree.parent c hc p hp).1, ⟨chain, hchain, hlive⟩,
    fun a s' evs c hstep hc => ?_, h.destroyed_once⟩
  · rcases List.mem_append.mp hc with hc | hc
    · exact (htree.listed owner c hc).1
    · have hpath := (List.mem_filter.mp ((htree.held_perm hinv).mem_iff.mp hc)).1
      exact (htree.onPath c hpath).1
  · obtain ⟨_, hlive, hdone, hpool⟩ := (hinv.effect hstep).destroyed hc
    obtain ⟨hchilds, hheld⟩ := htree.childless hinv hdone
    refine ⟨hlive, hdone, hchilds, hheld, fun hin => ?_⟩
    rw [hpool] at hin
    exact (hinv.nodup.mem_erase_iff.mp hin).1 rfl

/-- Main attaches coroutine 0 and resumes it in a pass; it attaches coroutine 1 and
waits for a message, with 1 held by its pass. -/
theorem ownership_conserved_nested : ∃ tr s, RunOf TreeDriven tr s ∧ s.running = some 1 ∧
    s.held none = [0] ∧ s.coroChilds (some 0) = [] ∧
    (s.coroChilds (some 0)).count 1 + (s.held (some 0)).count 1 =
      if s.coroParent 1 = some 0 then 1 else 0 := by
  have hrun : (Transition.exec State.step TreeDriven State.init
      [.user (.create 0 0), .user (.create 1 0), .user (.child 0), .user (.resume none),
        .lib, .lib, .lib, .lib, .lib, .user (.child 1), .user (.mget true), .lib, .lib, .lib,
        .lib, .lib]).isSome = true := by decide +kernel
  have h := Transition.run_get hrun
  exact ⟨_, _, h, rfl, rfl, rfl,
    (ownership_conserved h).1 1 ((RunOf.schedInv h).live 1 rfl) rfl (some 0)⟩

end BoostCoro.Coroutine
