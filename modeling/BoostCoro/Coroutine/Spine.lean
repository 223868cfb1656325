import BoostCoro.Coroutine.Running
import BoostCoro.Lib.Walk
/-!
# Passes in progress

When control moves only by passes and by `yield`, the calls in progress in the
running context and in the contexts suspended below it are nested passes: each
pass holds a child of the list it goes over, and the next pass goes over the list
of that child. The children held, from the innermost pass to the outermost, are a
path of the tree of coroutines.
-/

namespace BoostCoro.Coroutine

open Walk (Chain)

/-- The calls that make up a pass. -/
def Frame.isPass : Frame → Bool
  | resume _ _ _ => true
  | resumeChilds _ _ _ _ => true
  | _ => false

theorem Frame.ne_body_of_isPass {f : Frame} (hf : f.isPass = true) (c : CoroId) :
    f ≠ .execute c .body := by
  rintro rfl
  cases hf

/-- The stack of a context that is in no pass. -/
def Base (fs : List Frame) : Prop := ∀ f ∈ fs, f.isPass = false

theorem Base.nil : Base [] := fun _ h => absurd h List.not_mem_nil

theorem Base.cons {f : Frame} {fs : List Frame} (hf : f.isPass = false) (h : Base fs) :
    Base (f :: fs) := List.forall_mem_cons.mpr ⟨hf, h⟩

theorem Base.top {f : Frame} {fs : List Frame} (h : Base (f :: fs)) : f.isPass = false :=
  h f List.mem_cons_self

theorem Base.tail {f : Frame} {fs : List Frame} (h : Base (f :: fs)) : Base fs :=
  fun g hg => h g (List.mem_cons_of_mem _ hg)

/-- A call outside a pass is made outside a pass. -/
theorem Frame.isPass_of_mayCall {f g : Frame} (hcall : g.mayCall f) (hf : f.isPass = false) :
    g.isPass = false := by
  cases g with
  | resume _ _ pc =>
      cases f with
      | resumeChilds _ _ _ _ => exact absurd hf Bool.true_eq_false.mp
      | _ => cases pc <;> exact absurd hcall id
  | resumeChilds _ _ _ child =>
      cases f with
      | resume _ _ _ => exact absurd hf Bool.true_eq_false.mp
      | _ => cases child <;> exact absurd hcall id
  | _ => rfl

theorem Stacked.base {x : Ctx} {f : Frame} {rest : List Frame} (h : Stacked x (f :: rest))
    (hf : f.isPass = false) : Base (f :: rest) := by
  induction rest generalizing f with
  | nil => exact .cons hf .nil
  | cons g rest ih =>
      have hcall : g.mayCall f := h.calledBy
      exact .cons hf (ih h.tail (Frame.isPass_of_mayCall hcall hf))

/-! ## Nested passes -/

/-- Outside the passes nothing is called on top of a `yield`. -/
theorem Stacked.yield_top {x : Ctx} {f : Frame} {rest : List Frame} {c : CoroId} {pc : YieldPc}
    (h : Stacked x (f :: rest)) (hf : f.isPass = false) : .yield c pc ∉ rest := by
  induction rest generalizing f with
  | nil => exact List.not_mem_nil
  | cons g rest ih =>
      have hcall : g.mayCall f := h.calledBy
      intro hmem
      rcases List.mem_cons.mp hmem with rfl | hmem
      · cases pc with
        | childs => cases f <;> first | exact hcall | cases hf
        | back => exact hcall
      · exact ih h.tail (Frame.isPass_of_mayCall hcall hf) hmem

/-- `Spine s x fs path below`: the context `x`, with the stack `fs`, is in the
passes that hold the coroutines of `path`; `below` are the contexts it was resumed
from. -/
inductive Spine (s : Sched) : Ctx → List Frame → List CoroId → List Ctx → Prop
  | main {fs : List Frame} (hbase : Base fs) : Spine s none fs [] []
  | coro {c : CoroId} {y : Ctx} {fs rest : List Frame} {path : List CoroId} {below : List Ctx}
      (hbase : Base fs) (hpre : s.coroPre c = y) (htop : s.stack y = .resume y c .back :: rest)
      (hrest : Spine s y (.resume y c .back :: rest) (c :: path) below) :
      Spine s (some c) fs (c :: path) (y :: below)
  | held {x : Ctx} {d : CoroId} {pc : ResumePc} {fs : List Frame} {loop : Nat}
      {path : List CoroId} {below : List Ctx}
      (hloop : loop ≤ (s.coroChilds path.head?).length) (hparent : s.coroParent d = path.head?)
      (hrest : Spine s x fs path below) :
      Spine s x (.resume x d pc :: .resumeChilds x path.head? loop (some d) :: fs)
        (d :: path) below

namespace Spine

variable {s s' : Sched} {x : Ctx} {fs : List Frame} {path : List CoroId} {below : List Ctx}
  {c d : CoroId} {pc : ResumePc} {rest : List Frame}

/-- The path leads from parent to parent. -/
theorem parents (h : Spine s x fs path below) : Chain s.coroParent path.head? path := by
  induction h with
  | main => exact .nil
  | coro _ _ _ _ ih => exact ih
  | held _ hparent _ ih => exact .cons (hparent ▸ ih)

theorem nodup (h : Spine s x fs path below) : path.Nodup := h.parents.nodup

/-- The contexts below are those along `_coro_pre`, and their coroutines are held. -/
theorem contexts (h : Spine s x fs path below) :
    ∃ chain, Chain s.coroPre x chain ∧ x :: below = chain.map some ++ [none] ∧
      ∀ c ∈ chain, c ∈ path := by
  induction h with
  | main => exact ⟨[], .nil, rfl, fun _ hc => absurd hc List.not_mem_nil⟩
  | @coro c y _ _ _ _ _ hpre _ _ ih =>
      obtain ⟨chain, hchain, hbelow, hpath⟩ := ih
      refine ⟨c :: chain, .cons (hpre ▸ hchain), by rw [hbelow]; rfl, ?_⟩
      exact List.forall_mem_cons.mpr ⟨List.mem_cons_self, hpath⟩
  | held _ _ _ ih =>
      obtain ⟨chain, hchain, hbelow, hpath⟩ := ih
      exact ⟨chain, hchain, hbelow, fun c hc => List.mem_cons_of_mem _ (hpath c hc)⟩

theorem contexts_nodup (h : Spine s x fs path below) : (x :: below).Nodup := by
  obtain ⟨chain, hchain, hbelow, _⟩ := h.contexts
  rw [hbelow]
  refine List.nodup_append.mpr
    ⟨hchain.nodup.map fun _ _ heq => Option.some.inj heq, List.nodup_singleton _, ?_⟩
  intro y hy z hz hyz
  obtain ⟨c, _, hc⟩ := List.mem_map.mp hy
  rw [hyz, List.mem_singleton.mp hz] at hc
  cases hc

theorem notMem_below (h : Spine s x fs path below) : x ∉ below :=
  (List.nodup_cons.mp h.contexts_nodup).1

theorem mem_path (h : Spine s x fs path below) (hc : some c ∈ x :: below) : c ∈ path := by
  obtain ⟨chain, _, hbelow, hpath⟩ := h.contexts
  rw [hbelow] at hc
  rcases List.mem_append.mp hc with hc | hc
  · obtain ⟨d, hd, hdc⟩ := List.mem_map.mp hc
    exact hpath c (Option.some.inj hdc ▸ hd)
  · cases List.mem_singleton.mp hc

theorem below_top {y : Ctx} (h : Spine s x fs path below) (hy : y ∈ below) :
    ∃ c rest, s.stack y = .resume y c .back :: rest := by
  induction h with
  | main => cases hy
  | coro _ _ htop _ ih =>
      rcases List.mem_cons.mp hy with rfl | hy
      · exact ⟨_, _, htop⟩
      · exact ih hy
  | held _ _ _ ih => exact ih hy

theorem congr (h : Spine s x fs path below)
    (hpre : ∀ c, some c ∈ x :: below → s'.coroPre c = s.coroPre c)
    (hparent : ∀ c ∈ path, s'.coroParent c = s.coroParent c)
    (hstack : ∀ y ∈ below, s'.stack y = s.stack y)
    (hlen : ∀ c ∈ path, (s.coroChilds (s.coroParent c)).length ≤
      (s'.coroChilds (s.coroParent c)).length) : Spine s' x fs path below := by
  induction h with
  | main hbase => exact .main hbase
  | coro hbase hpre' htop hrest ih =>
      refine .coro hbase ?_ ?_ (ih ?_ hparent ?_ hlen)
      · exact (hpre _ List.mem_cons_self).trans hpre'
      · exact (hstack _ List.mem_cons_self).trans htop
      · exact fun c hc => hpre c (List.mem_cons_of_mem _ hc)
      · exact fun y hy => hstack y (List.mem_cons_of_mem _ hy)
  | held hloop hparent' hrest ih =>
      refine .held ?_ ?_ (ih hpre ?_ hstack ?_)
      · have hle := hlen _ List.mem_cons_self
        rw [hparent'] at hle
        exact Nat.le_trans hloop hle
      · exact (hparent _ List.mem_cons_self).trans hparent'
      · exact fun c hc => hparent c (List.mem_cons_of_mem _ hc)
      · exact fun c hc => hlen c (List.mem_cons_of_mem _ hc)

/-- The stack of the running context is an argument. -/
theorem setStack {gs : List Frame} (h : Spine s s.running fs path below) :
    Spine (s.setStack gs) s.running fs path below := by
  refine h.congr (fun _ _ => rfl) (fun _ _ => rfl) (fun y hy => ?_) (fun _ _ => Nat.le_refl _)
  have hne : y ≠ s.running := fun heq => h.notMem_below (heq ▸ hy)
  exact Function.update_of_ne hne ..

/-- A context in no pass of its own goes over its own list. -/
theorem head_of_base (h : Spine s x fs path below) (hbase : Base fs) : path.head? = x := by
  cases h with
  | main => rfl
  | coro => rfl
  | held => cases hbase.top

theorem rebase {gs : List Frame} (h : Spine s x fs path below) (hfs : Base fs)
    (hgs : Base gs) : Spine s x gs path below := by
  cases h with
  | main => exact .main hgs
  | coro _ hpre htop hrest => exact .coro hgs hpre htop hrest
  | held => cases hfs.top

/-- A `resume` in progress is that of the child that a pass holds. -/
theorem of_resume (h : Spine s x (.resume x c pc :: rest) path below) :
    ∃ loop fs path', rest = .resumeChilds x path'.head? loop (some c) :: fs ∧ path = c :: path' ∧
      loop ≤ (s.coroChilds path'.head?).length ∧ s.coroParent c = path'.head? ∧
      Spine s x fs path' below := by
  cases h with
  | main hbase => cases hbase.top
  | coro hbase => cases hbase.top
  | held hloop hparent hrest => exact ⟨_, _, _, rfl, rfl, hloop, hparent, hrest⟩

/-- A `resume` goes on to its next place. -/
theorem advance {pc' : ResumePc} (h : Spine s x (.resume x c pc :: rest) path below) :
    Spine s x (.resume x c pc' :: rest) path below := by
  obtain ⟨_, _, _, rfl, rfl, hloop, hparent, hrest⟩ := h.of_resume
  exact .held hloop hparent hrest

/-- A pass is on top of no spine. -/
theorem not_pass {cur : Ctx} {loop : Nat} {child : Option CoroId}
    (h : Spine s x (.resumeChilds x cur loop child :: rest) path below) : False := by
  cases h with
  | main hbase => cases hbase.top
  | coro hbase => cases hbase.top

end Spine

/-- What the running context is doing: code of its own or a `resume`; a turn of a
pass; the end of such a turn, with the child still held. -/
inductive Active (s : Sched) : List CoroId → List Ctx → Prop
  | calls {path : List CoroId} {below : List Ctx}
      (hspine : Spine s s.running (s.stack s.running) path below) : Active s path below
  | pass {path : List CoroId} {below : List Ctx} {fs : List Frame} {loop : Nat}
      (htop : s.stack s.running = .resumeChilds s.running path.head? loop none :: fs)
      (hloop : loop ≤ (s.coroChilds path.head?).length)
      (hspine : Spine s s.running fs path below) : Active s path below
  | back {path : List CoroId} {below : List Ctx} {fs : List Frame} {loop : Nat} {d : CoroId}
      (htop : s.stack s.running = .resumeChilds s.running path.head? loop (some d) :: fs)
      (hloop : loop ≤ (s.coroChilds path.head?).length)
      (hparent : s.coroParent d = path.head?)
      (hspine : Spine s s.running fs path below) : Active s (d :: path) below

namespace Active

variable {s s' : Sched} {path : List CoroId} {below : List Ctx} {rest : List Frame} {c : CoroId}

theorem parents (h : Active s path below) : Chain s.coroParent path.head? path := by
  cases h with
  | calls hspine => exact hspine.parents
  | pass _ _ hspine => exact hspine.parents
  | back _ _ hparent hspine => exact .cons (hparent ▸ hspine.parents)

/-- The contexts of the running coroutine and of those below it. -/
theorem contexts (h : Active s path below) :
    ∃ chain, Chain s.coroPre s.running chain ∧
      s.running :: below = chain.map some ++ [none] ∧ ∀ c ∈ chain, c ∈ path := by
  cases h with
  | calls hspine => exact hspine.contexts
  | pass _ _ hspine => exact hspine.contexts
  | back _ _ _ hspine =>
      obtain ⟨chain, hchain, hbelow, hpath⟩ := hspine.contexts
      exact ⟨chain, hchain, hbelow, fun c hc => List.mem_cons_of_mem _ (hpath c hc)⟩

theorem contexts_nodup (h : Active s path below) : (s.running :: below).Nodup := by
  cases h with
  | calls hspine => exact hspine.contexts_nodup
  | pass _ _ hspine => exact hspine.contexts_nodup
  | back _ _ _ hspine => exact hspine.contexts_nodup

theorem mem_path (h : Active s path below) (hc : some c ∈ s.running :: below) : c ∈ path := by
  cases h with
  | calls hspine => exact hspine.mem_path hc
  | pass _ _ hspine => exact hspine.mem_path hc
  | back _ _ _ hspine => exact List.mem_cons_of_mem _ (hspine.mem_path hc)

/-- A context below is in a `resume` that waits for control. -/
theorem below_top {x : Ctx} (h : Active s path below) (hx : x ∈ below) :
    ∃ c rest, s.stack x = .resume x c .back :: rest := by
  cases h with
  | calls hspine => exact hspine.below_top hx
  | pass _ _ hspine => exact hspine.below_top hx
  | back _ _ _ hspine => exact hspine.below_top hx

theorem congr (h : Active s path below) (hrun : s'.running = s.running)
    (htop : s'.stack s.running = s.stack s.running)
    (hpre : ∀ c, some c ∈ s.running :: below → s'.coroPre c = s.coroPre c)
    (hparent : ∀ c ∈ path, s'.coroParent c = s.coroParent c)
    (hstack : ∀ y ∈ below, s'.stack y = s.stack y)
    (hlen : ∀ x, (s.coroChilds x).length ≤ (s'.coroChilds x).length) :
    Active s' path below := by
  cases h with
  | calls hspine =>
      apply Active.calls
      rw [hrun, htop]
      exact hspine.congr hpre hparent hstack fun c _ => hlen _
  | pass hpass hloop hspine =>
      refine .pass (by rw [hrun, htop, hpass]) (Nat.le_trans hloop (hlen _)) ?_
      rw [hrun]
      exact hspine.congr hpre hparent hstack fun c _ => hlen _
  | back hback hloop hheld hspine =>
      refine .back (by rw [hrun, htop, hback]) (Nat.le_trans hloop (hlen _))
        ((hparent _ List.mem_cons_self).trans hheld) ?_
      rw [hrun]
      exact hspine.congr hpre (fun c hc => hparent c (List.mem_cons_of_mem _ hc)) hstack
        fun c _ => hlen _

theorem spine_of_base (h : Active s path below) (hbase : Base (s.stack s.running)) :
    Spine s s.running (s.stack s.running) path below := by
  cases h with
  | calls hspine => exact hspine
  | pass htop =>
      rw [htop] at hbase
      cases hbase.top
  | back htop =>
      rw [htop] at hbase
      cases hbase.top

theorem spine_of_resume {pc : ResumePc} (h : Active s path below)
    (hresume : s.stack s.running = .resume s.running c pc :: rest) :
    Spine s s.running (.resume s.running c pc :: rest) path below := by
  cases h with
  | calls hspine => rwa [hresume] at hspine
  | pass htop =>
      rw [htop] at hresume
      cases hresume
  | back htop =>
      rw [htop] at hresume
      cases hresume

theorem spine_of_turn {cur : Ctx} {loop : Nat} (h : Active s path below)
    (hturn : s.stack s.running = .resumeChilds s.running cur loop none :: rest) :
    cur = path.head? ∧ loop ≤ (s.coroChilds cur).length ∧
      Spine s s.running rest path below := by
  cases h with
  | calls hspine =>
      rw [hturn] at hspine
      exact absurd hspine Spine.not_pass
  | pass htop hloop hspine =>
      rw [htop] at hturn
      cases hturn
      exact ⟨rfl, hloop, hspine⟩
  | back htop =>
      rw [htop] at hturn
      cases hturn

theorem spine_of_back {cur : Ctx} {loop : Nat} (h : Active s path below)
    (hback : s.stack s.running = .resumeChilds s.running cur loop (some c) :: rest) :
    ∃ path', path = c :: path' ∧ cur = path'.head? ∧ loop ≤ (s.coroChilds cur).length ∧
      s.coroParent c = cur ∧ Spine s s.running rest path' below := by
  cases h with
  | calls hspine =>
      rw [hback] at hspine
      exact absurd hspine Spine.not_pass
  | pass htop =>
      rw [htop] at hback
      cases hback
  | back htop hloop hparent hspine =>
      rw [htop] at hback
      cases hback
      exact ⟨_, rfl, rfl, hloop, hparent, hspine⟩

end Active

end BoostCoro.Coroutine
