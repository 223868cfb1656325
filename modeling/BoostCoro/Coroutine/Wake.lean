import BoostCoro.Coroutine.Ownership
import BoostCoro.Coroutine.WaitFlags
import BoostCoro.Lib.Ahead
/-!
# No wake-up is lost

A coroutine that was woken is due: its ancestors were told, or the passes in
progress come to it. It stays due until control is transferred to it, and a pass of
main over its list comes to whoever is due.
-/

namespace BoostCoro.Coroutine

open Walk (Chain)
open Tour (Line Heard Told Heeds Ahead Due)
open Transition (Run exec after)

variable {s s' : State} {a : Act} {evs tr : List Obs} {path path' : List CoroId}
  {below below' : List Ctx} {c p : CoroId} {line : List CoroId} {w : FlagWord}

/-! ## The line of a coroutine -/

/-- Every coroutine has a way to the top. -/
def Rooted (s : Sched) : Prop := ∀ c ∈ s.pool, ∃ line, Chain s.coroParent (some c) line

/-- A coroutine that has run as long as its children need it. -/
def Lives (s : Sched) (c : CoroId) : Prop :=
  c ∈ s.pool ∧ s.attached c = true ∧ s.stat c ≠ coroStatDone

namespace Tree

theorem parent_lives {s : Sched} (h : Tree s path below) (hc : c ∈ s.pool)
    (hp : s.coroParent c = some p) : Lives s p := by
  obtain ⟨hlive, hattached, _, hdone⟩ := h.parent c hc p hp
  exact ⟨hlive, hattached, hdone⟩

theorem running_held {s : Sched} (h : Tree s path below) (hrun : s.running = some c) :
    c ∈ path := h.active.mem_path (hrun ▸ List.mem_cons_self)

theorem chain_lives {s : Sched} (h : Tree s path below) (hc : c ∈ s.pool)
    (hchain : Chain s.coroParent (some c) line) : ∀ d ∈ line, d ≠ c → Lives s d := by
  generalize hx : some c = x at hchain
  induction hchain generalizing c with
  | nil => exact fun _ hd => absurd hd List.not_mem_nil
  | @cons b l hrest ih =>
      obtain rfl := Option.some.inj hx
      intro d hd hne
      have hd := (List.mem_cons.mp hd).resolve_left hne
      cases hp : s.coroParent c with
      | none =>
          rw [hp] at hrest
          cases hrest
          cases hd
      | some p =>
          have hlives := h.parent_lives hc hp
          by_cases hdp : d = p
          · exact hdp ▸ hlives
          · exact ih hlives.1 hp.symm d hd hdp

theorem line_lives {s : Sched} (h : Tree s path below) (hc : Lives s c)
    (hchain : Chain s.coroParent (some c) line) : ∀ d ∈ line, Lives s d := by
  intro d hd
  by_cases hdc : d = c
  · exact hdc ▸ hc
  · exact h.chain_lives hc.1 hchain d hd hdc

theorem line_of_chain (h : Tree s.toSched path below) (hc : Lives s.toSched c)
    (hchain : Chain s.coroParent (some c) line) : Line (s.tour path below) c line where
  chain := hchain
  alive := fun d hd => (h.line_lives hc hchain d hd).2.2
  placed := fun d hd =>
    h.placed d (h.line_lives hc hchain d hd).1 (h.line_lives hc hchain d hd).2.1

end Tree

/-- A parent is given only to a coroutine that is new or not attached yet. -/
theorem Effect.coroParent (hok : TreeDriven s a) (heffect : Effect s a s' evs) :
    (s'.coroParent = s.coroParent ∧ s'.pool ⊆ s.pool) ∨
      ∃ d owner, (d ∈ s.pool → s.attached d = false) ∧ (owner = none ∨ owner = s.running) ∧
        s'.coroParent = Function.update s.coroParent d owner ∧ s'.pool ⊆ d :: s.pool := by
  have hself : s.coroParent = s.coroParent ∧ s.pool ⊆ s.pool := ⟨rfl, List.Subset.refl _⟩
  have hpass : ∀ {t t' : State} {coro evs}, EnterPass t coro t' evs →
      t.coroParent = s.coroParent ∧ t.pool ⊆ s.pool →
        t'.coroParent = s.coroParent ∧ t'.pool ⊆ s.pool := by
    intro t t' coro evs hpass h
    rw [hpass.frame]
    exact h
  cases heffect with
  | resumePass _ _ _ _ hp => exact .inl (hpass hp hself)
  | passDestroy => exact .inl ⟨rfl, List.erase_subset⟩
  | passDrop => exact .inl ⟨rfl, List.erase_subset⟩
  | allPass _ _ _ hp => exact .inl (hpass hp hself)
  | executePass _ _ _ hp => exact .inl (hpass hp hself)
  | mgetSleep _ _ _ hp => exact .inl (hpass hp hself)
  | @create d _ _ hd =>
      exact .inr ⟨d, none, fun hlive => absurd hlive hd, .inl rfl, rfl, List.Subset.refl _⟩
  | @child d =>
      cases hrun : s.running with
      | none => exact .inl hself
      | some p => exact .inr ⟨d, some p, fun _ => hok.2, .inr rfl, rfl, List.subset_cons_self _ _⟩
  | callPass _ hp => exact .inl (hpass hp hself)
  | callYield _ _ hp => exact .inl (hpass hp hself)
  | waitCoro _ _ _ _ hp => exact .inl (hpass hp hself)
  | quiet _ hquiet =>
      rw [hquiet.sched]
      exact .inl hself
  | _ => exact .inl hself

/-- The parents of the coroutines that live do not change. -/
theorem Effect.coroParent_eq (hok : TreeDriven s a) (heffect : Effect s a s' evs)
    (hc : Lives s.toSched c) : s'.coroParent c = s.coroParent c := by
  rcases heffect.coroParent hok with ⟨hparent, _⟩ | ⟨d, owner, hfree, _, hparent, _⟩
  · rw [hparent]
  · have hne : c ≠ d := by
      rintro rfl
      rw [hc.2.1] at hfree
      exact absurd (hfree hc.1) (by decide)
    rw [hparent, Function.update_of_ne hne]

theorem Rooted.step (h : Rooted s.toSched) (hok : TreeDriven s a)
    (hstride : Stride s path below a evs s' path' below') : Rooted s'.toSched := by
  intro c hc
  have htree := hstride.tree
  rcases hstride.effect.coroParent hok with
    ⟨hparent, hpool⟩ | ⟨d, owner, hfree, howner, hparent, hpool⟩
  · rw [hparent]
    exact h c (hpool hc)
  · have hne : ∀ e ∈ s.pool, s.attached e = true → e ≠ d := by
      rintro e he hattached rfl
      rw [hfree he] at hattached
      cases hattached
    have hkeep : ∀ e ∈ s.pool, e ≠ d → ∃ l, Chain s'.coroParent (some e) l := by
      intro e he hed
      obtain ⟨l, hchain⟩ := h e he
      refine ⟨l, hchain.congr fun b hb => ?_⟩
      rw [hparent]
      refine Function.update_of_ne ?_ ..
      by_cases hbe : b = e
      · exact hbe ▸ hed
      · have hlives := htree.chain_lives he hchain b hb hbe
        exact hne b hlives.1 hlives.2.1
    by_cases hcd : c = d
    · have hstart : s'.coroParent c = owner := by rw [hparent, hcd, Function.update_self]
      rcases howner with rfl | rfl
      · exact ⟨[c], .cons (hstart ▸ .nil)⟩
      · cases hrun : s.running with
        | none => exact ⟨[c], .cons (by rw [hstart, hrun]; exact .nil)⟩
        | some p =>
            obtain ⟨hlive, hattached⟩ := htree.onPath p (htree.running_held hrun)
            obtain ⟨l, hchain⟩ := hkeep p hlive (hne p hlive hattached)
            exact ⟨c :: l, .cons (by rw [hstart, hrun]; exact hchain)⟩
    · exact hkeep c ((List.mem_cons.mp (hpool hc)).resolve_left hcd) hcd

/-! ## Waiting over a run -/

/-- Who waits is asleep, in one wait. -/
structure WaitInv (s : State) : Prop where
  asleep : ∀ c ∈ s.pool, s.waiting c = true → s.attached c = true ∧ Asleep s.toSched c
  single : ∀ c ∈ s.pool, s.chk .evet c coroEvetWait = true → s.chk .msg c coroEvetWait = false
  rooted : Rooted s.toSched

theorem notified_iff : s.notified c = true ↔ ∃ w, s.chk w c coroEvetChld = true := by
  unfold State.notified
  rw [Bool.or_eq_true]
  constructor
  · rintro (h | h)
    · exact ⟨.evet, h⟩
    · exact ⟨.msg, h⟩
  · rintro ⟨_ | _, h⟩
    · exact .inl h
    · exact .inr h

theorem waitInv_init : WaitInv State.init where
  asleep := fun _ h => absurd h List.not_mem_nil
  single := fun _ h => absurd h List.not_mem_nil
  rooted := fun _ h => absurd h List.not_mem_nil

theorem Stride.not_fallsAsleep (hstride : Stride s path below a evs s' path' below')
    (h : Asleep s.toSched c) : ¬ FallsAsleep s s' w c := by
  intro hfalls
  obtain ⟨chain, hchain, _⟩ := hstride.tree.resumerChain hstride.inv
  exact h.not_body hchain hfalls.running hfalls.awake

theorem Stride.asleep (hstride : Stride s path below a evs s' path' below')
    (h : Asleep s.toSched c) (hnot : .transferred c ∉ evs) : Asleep s'.toSched c := by
  obtain ⟨chain, hchain, _⟩ := hstride.tree.resumerChain hstride.inv
  exact h.step hstride.inv hchain (hstride.tree.transfersOffChain hstride.inv) hstride.effect hnot

theorem WaitInv.step (h : WaitInv s) (hok : WakeDriven s a)
    (hstride : Stride s path below a evs s' path' below') : WaitInv s' := by
  have hinv := hstride.inv
  have heffect := hstride.effect
  have hflags := heffect.flagStep hinv hok
  -- a coroutine constructed in this step does not wait
  have hold : ∀ c ∈ s'.pool, ∀ w, s'.chk w c coroEvetWait = true → c ∈ s.pool := by
    intro c hc w hw
    refine (heffect.pool hc).resolve_right fun hnew => ?_
    obtain ⟨_, _, raw, rfl, hevet, hmsg, _⟩ := heffect.constructed hnew
    obtain rfl : raw = 0 := hok.2.1
    unfold State.chk at hw
    cases w with
    | evet => simp [hevet, hasBit] at hw
    | msg => simp [hmsg, hasBit] at hw
  -- who waits does not start another wait
  have hawake : ∀ c ∈ s.pool, s.waiting c = true → ∀ w, ¬ FallsAsleep s s' w c :=
    fun c hc hw w => hstride.not_fallsAsleep (h.asleep c hc hw).2
  constructor
  case asleep =>
    intro c hc hw
    obtain ⟨w, hw⟩ := waiting_iff.mp hw
    have hlive := hold c hc w hw
    rcases hflags.wait w c hlive hw with hbefore | hfalls
    · have hwait := waiting_iff.mpr ⟨w, hbefore⟩
      obtain ⟨hattached, hasleep⟩ := h.asleep c hlive hwait
      refine ⟨(heffect.stays hlive hasleep.alive).2 hattached, ?_⟩
      refine hstride.asleep hasleep fun hnew => ?_
      rw [(heffect.transferred hnew).2.1] at hwait
      cases hwait
    · have hin := hstride.tree.running_held hfalls.running
      have hbusy := hinv.running_busy hfalls.running
      have hstays := heffect.stays hlive (by rw [hbusy]; decide)
      refine ⟨hstays.2 (hstride.tree.onPath c hin).2, hc, fun hdone => ?_,
        fun _ => hfalls.yields⟩
      have hyields := hfalls.yields
      rw [(hinv.step heffect).finished c hc hdone] at hyields
      simp at hyields
  case single =>
    intro c hc hevet
    have hlive := hold c hc .evet hevet
    refine Bool.eq_false_iff.mpr fun hmsg => ?_
    by_cases hwait : s.waiting c = true
    · have hboth : ∀ w, s'.chk w c coroEvetWait = true → s.chk w c coroEvetWait = true :=
        fun w hw => (hflags.wait w c hlive hw).resolve_right (hawake c hlive hwait w)
      have hone := h.single c hlive (hboth .evet hevet)
      rw [hboth .msg hmsg] at hone
      cases hone
    · have hfalls := (hflags.wait .evet c hlive hevet).resolve_left fun hbefore =>
        hwait (waiting_iff.mpr ⟨.evet, hbefore⟩)
      rw [hfalls.once .msg (by rintro ⟨⟩)] at hmsg
      exact hwait (waiting_iff.mpr ⟨.msg, hmsg⟩)
  case rooted => exact h.rooted.step hok.1 hstride

theorem RunOf.rooted (h : RunOf TreeDriven tr s) :
    SchedInv s.toSched ∧ ∃ path below, Tree s.toSched path below ∧ Rooted s.toSched :=
  Tree.run (P := fun _ s _ _ => Rooted s.toSched) (fun _ _ hok => hok)
    (fun _ _ _ _ _ _ _ _ _ hstride hok hrooted => hrooted.step hok hstride) h schedInv_init
    tree_init fun _ hin => absurd hin List.not_mem_nil

theorem RunOf.waitInv (h : RunOf WakeDriven tr s) :
    SchedInv s.toSched ∧ ∃ path below, Tree s.toSched path below ∧ WaitInv s :=
  Tree.run (P := fun _ s _ _ => WaitInv s) (fun _ _ hok => hok.1)
    (fun _ _ _ _ _ _ _ _ _ hstride hok hwait => hwait.step hok hstride) h schedInv_init
    tree_init waitInv_init

/-! ## From a wake-up to the transfer -/

/-- A step heeds the flags of the line of a coroutine. -/
theorem Stride.heeds (hstride : Stride s path below a evs s' path' below')
    (hok : WakeDriven s a) (hlives : ∀ d ∈ line, Lives s.toSched d) :
    Heeds (labels evs) line (s.tour path below) (s'.tour path' below') := by
  have hflags := hstride.effect.flagStep hstride.inv hok
  constructor
  case parent => exact fun d hd => hstride.effect.coroParent_eq hok.1 (hlives d hd)
  case waiting =>
    intro d hd hoff hwait
    obtain ⟨w, hw⟩ := waiting_iff.mp hwait
    rcases hflags.wait w d (hlives d hd).1 hw with hbefore | hfalls
    · exact waiting_iff.mpr ⟨w, hbefore⟩
    · refine absurd ?_ hoff
      show some d ∈ s.running :: below
      rw [hfalls.running]
      exact List.mem_cons_self
  case notified =>
    intro d hd hnotified
    obtain ⟨w, hw⟩ := notified_iff.mp hnotified
    rcases hflags.chld w d (hlives d hd).1 hw with hkept | hbegins
    · exact .inl (notified_iff.mpr ⟨w, hkept⟩)
    · exact .inr (begins_mem.mpr hbegins)

/-- `c` was woken, or may run anyway, and control did not come to it since. -/
structure Pending (s : State) (path : List CoroId) (below : List Ctx) (c : CoroId)
    (line : List CoroId) : Prop where
  attached : s.attached c = true
  asleep : Asleep s.toSched c
  ready : s.waiting c = false
  chain : Chain s.coroParent (some c) line
  due : Due (s.tour path below) c line

namespace Pending

theorem lives (h : Pending s path below c line) : Lives s.toSched c :=
  ⟨h.asleep.live, h.attached, h.asleep.alive⟩

theorem toLine (h : Pending s path below c line) (htree : Tree s.toSched path below) :
    Line (s.tour path below) c line :=
  htree.line_of_chain h.lives h.chain

theorem step (h : Pending s path below c line) (hok : WakeDriven s a)
    (hstride : Stride s path below a evs s' path' below') (hnot : .transferred c ∉ evs) :
    Pending s' path' below' c line := by
  have htree := hstride.tree
  have hlives := htree.line_lives h.lives h.chain
  have hheeds := hstride.heeds hok hlives
  constructor
  case attached => exact (hstride.effect.stays h.asleep.live h.asleep.alive).2 h.attached
  case asleep => exact hstride.asleep h.asleep hnot
  case ready =>
    refine Bool.eq_false_iff.mpr fun hwait => ?_
    obtain ⟨w, hw⟩ := waiting_iff.mp hwait
    have hflags := hstride.effect.flagStep hstride.inv hok
    rcases hflags.wait w c h.asleep.live hw with hbefore | hfalls
    · have hready := h.ready
      rw [waiting_iff.mpr ⟨w, hbefore⟩] at hready
      cases hready
    · exact hstride.not_fallsAsleep h.asleep hfalls
  case chain => exact h.chain.congr hheeds.parent
  case due =>
    exact h.due.move htree.ok (h.toLine htree) hheeds hstride.move
      (fun hv => hnot (visits_mem.mp hv)) (Bool.eq_false_iff.mp h.ready)

/-- A wake-up. -/
theorem of_wake (h : WaitInv s) (hok : WakeDriven s a)
    (hstride : Stride s path below a evs s' path' below') (hc : c ∈ s.pool)
    (hbefore : s.chk w c coroEvetWait = true) (hafter : s'.chk w c coroEvetWait = false) :
    ∃ line, Pending s' path' below' c line := by
  have hwait := waiting_iff.mpr ⟨w, hbefore⟩
  obtain ⟨hattached, hasleep⟩ := h.asleep c hc hwait
  have hflags := hstride.effect.flagStep hstride.inv hok
  obtain ⟨line, hchain⟩ := h.rooted c hc
  have hlives := hstride.tree.line_lives ⟨hc, hattached, hasleep.alive⟩ hchain
  have hnotified : ∀ d ∈ line, d ≠ c → s'.notified d = true := fun d hd hdc =>
    notified_iff.mpr ⟨w, hflags.told w c hc hbefore hafter d (hchain.transGen hd hdc)⟩
  refine ⟨line, (hstride.effect.stays hc hasleep.alive).2 hattached, ?_, ?_, ?_, ?_, .inl ?_⟩
  · refine hstride.asleep hasleep fun hnew => ?_
    rw [(hstride.effect.transferred hnew).2.1] at hwait
    cases hwait
  · refine Bool.eq_false_iff.mpr fun hready => ?_
    obtain ⟨w', hw'⟩ := waiting_iff.mp hready
    rcases hflags.wait w' c hc hw' with hother | hfalls
    · have hne : w' ≠ w := by
        rintro rfl
        rw [hw'] at hafter
        cases hafter
      cases w with
      | evet =>
          cases w' with
          | evet => exact hne rfl
          | msg =>
              rw [h.single c hc hbefore] at hother
              cases hother
      | msg =>
          cases w' with
          | evet =>
              rw [h.single c hc hother] at hbefore
              cases hbefore
          | msg => exact hne rfl
    · exact hstride.not_fallsAsleep hasleep hfalls
  · exact hchain.congr fun d hd => hstride.effect.coroParent_eq hok.1 (hlives d hd)
  · exact fun d hd hdc _ _ => hnotified d hd hdc
  · exact fun d hd hdc _ => hnotified d hd hdc

theorem run (h : Pending s path below c line) (hinv : SchedInv s.toSched)
    (htree : Tree s.toSched path below) (hrun : Run State.step WakeDriven s tr s')
    (hnot : .transferred c ∉ tr) :
    SchedInv s'.toSched ∧ ∃ path' below', Tree s'.toSched path' below' ∧
      Pending s' path' below' c line ∧
        (Ahead (s.tour path below) c line → Ahead (s'.tour path' below') c line) := by
  have hall := Tree.run (P := fun tr s₁ path₁ below₁ => .transferred c ∉ tr →
      Pending s₁ path₁ below₁ c line ∧
        (Ahead (s.tour path below) c line → Ahead (s₁.tour path₁ below₁) c line))
    (fun _ _ hok => hok.1) ?_ hrun hinv htree fun _ => ⟨h, id⟩
  · obtain ⟨hinv', path', below', htree', hP⟩ := hall
    exact ⟨hinv', path', below', htree', hP hnot⟩
  · intro tr s₁ path₁ below₁ a evs s₂ path₂ below₂ hstride hok hP hnot
    rw [List.mem_append, not_or] at hnot
    obtain ⟨hpending, hahead⟩ := hP hnot.1
    refine ⟨hpending.step hok hstride hnot.2, fun hstart => ?_⟩
    have hlives := hstride.tree.line_lives hpending.lives hpending.chain
    exact (hahead hstart).move hstride.tree.ok (hpending.toLine hstride.tree)
      (hstride.heeds hok hlives) hstride.move (fun hv => hnot.2 (visits_mem.mp hv))
      (Bool.eq_false_iff.mp hpending.ready) hpending.due.heard

end Pending

/-! ## A pass of main -/

/-- A complete pass over `_main_childs`, from the step that starts it to the one
that ends it. -/
inductive MainPass (ok : State → Act → Prop) (s : State) : List Obs → State → Prop
  | intro {s₁ s₂ s₃ : State} {a a' : Act} {evs tr evs' : List Obs} (hok : ok s a)
      (hbegin : s.step a = some (.ok (s₁, evs))) (hbegins : .passBegin none ∈ evs)
      (hrun : Run State.step ok s₁ tr s₂) (hopen : .passEnd none ∉ tr) (hok' : ok s₂ a')
      (hend : s₂.step a' = some (.ok (s₃, evs'))) (hends : .passEnd none ∈ evs') :
      MainPass ok s (evs ++ tr ++ evs') s₃

/-- A pass of main, by running its inputs. -/
theorem MainPass.of_exec {ok : State → Act → Prop} [∀ s a, Decidable (ok s a)] (a a' : Act)
    (as : List Act) (hbegin : (exec State.step ok s [a]).isSome = true)
    (hbegins : .passBegin none ∈ (after State.step ok s [a]).2)
    (hrun : (exec State.step ok (after State.step ok s [a]).1 as).isSome = true)
    (hopen : .passEnd none ∉ (after State.step ok (after State.step ok s [a]).1 as).2)
    (hend : (exec State.step ok (after State.step ok (after State.step ok s [a]).1 as).1
      [a']).isSome = true)
    (hends : .passEnd none ∈
      (after State.step ok (after State.step ok (after State.step ok s [a]).1 as).1 [a']).2) :
    MainPass ok s ((after State.step ok s [a]).2 ++
      (after State.step ok (after State.step ok s [a]).1 as).2 ++
      (after State.step ok (after State.step ok (after State.step ok s [a]).1 as).1 [a']).2)
      (after State.step ok (after State.step ok (after State.step ok s [a]).1 as).1 [a']).1 := by
  obtain ⟨hok, hbegin⟩ := Transition.step_after hbegin
  obtain ⟨hok', hend⟩ := Transition.step_after hend
  exact .intro hok hbegin hbegins (Transition.run_after hrun) hopen hok' hend hends

/-- Main starts its passes when no pass holds anything. -/
theorem MainPass.path_nil {ok : State → Act → Prop} (himp : ∀ s a, ok s a → TreeDriven s a)
    (hinv : SchedInv s.toSched) (htree : Tree s.toSched path below)
    (hpass : MainPass ok s tr s') : path = [] := by
  cases hpass with
  | intro hok hbegin hbegins =>
      obtain ⟨_, _, hstride⟩ := htree.stride hinv (himp _ _ hok) hbegin
      have hhead := (hstride.move.begins htree.ok (begins_mem.mpr hbegins)).1
      exact List.head?_eq_none_iff.mp hhead

/-- A pass of main comes to a coroutine that is pending. -/
theorem Pending.served (h : Pending s path below c line) (hinv : SchedInv s.toSched)
    (htree : Tree s.toSched path below) (hpass : MainPass WakeDriven s tr s') :
    .transferred c ∈ tr := by
  cases hpass with
  | intro hok hbegin hbegins hrun hopen hok' hend hends =>
      by_contra hnot
      simp only [List.mem_append, not_or] at hnot
      obtain ⟨⟨hnot₁, hnot₂⟩, _⟩ := hnot
      obtain ⟨path₁, below₁, hstride⟩ := htree.stride hinv hok.1 hbegin
      have hlives := htree.line_lives h.lives h.chain
      have hahead := Ahead.of_begins_none htree.ok (h.toLine htree) (hstride.heeds hok hlives)
        hstride.move (begins_mem.mpr hbegins)
      obtain ⟨hinv₂, path₂, below₂, htree₂, _, hkeep⟩ :=
        (h.step hok hstride hnot₁).run (hinv.step hstride.effect) hstride.tree' hrun hnot₂
      obtain ⟨path₃, below₃, hstride'⟩ := htree₂.stride hinv₂ hok'.1 hend
      exact (hkeep hahead).not_ends_none htree₂.ok hstride'.move (ends_mem.mpr hends)

/-- No wake-up is lost: once a wait flag of `c` was cleared, and control did not come
to `c` since, the next complete pass of main transfers control to `c`. -/
theorem no_lost_wakeup {tr₀ tr₁ pass : List Obs} {s₀ s₁ s₂ s₃ : State}
    (h : RunOf WakeDriven tr₀ s₀) (hok : WakeDriven s₀ a)
    (hstep : s₀.step a = some (.ok (s₁, evs))) (hlive : c ∈ s₀.pool)
    (hbefore : s₀.chk w c w.wait = true) (hafter : s₁.chk w c w.wait = false)
    (hrun : Run State.step WakeDriven s₁ tr₁ s₂) (hsince : .transferred c ∉ tr₁)
    (hpass : MainPass WakeDriven s₂ pass s₃) : .transferred c ∈ pass := by
  rw [FlagWord.wait_eq] at hbefore hafter
  obtain ⟨hinv, path, below, htree, hwait⟩ := h.waitInv
  obtain ⟨path₁, below₁, hstride⟩ := htree.stride hinv hok.1 hstep
  obtain ⟨line, hpending⟩ := Pending.of_wake hwait hok hstride hlive hbefore hafter
  obtain ⟨hinv₂, path₂, below₂, htree₂, hpending₂, _⟩ :=
    hpending.run (hinv.step hstride.effect) hstride.tree' hrun hsince
  exact hpending₂.served hinv₂ htree₂ hpass

/-- Main attaches coroutine 0, which attaches coroutine 1; both wait for messages. -/
def nestedWaits : State :=
  (after State.step WakeDriven State.init
    [.user (.create 0 0), .user (.create 1 0), .user (.child 0), .user (.resumeChilds none),
      .lib, .lib, .lib, .lib, .user (.child 1), .user (.mget true), .lib, .lib, .lib, .lib,
      .lib, .user (.mget true), .lib, .lib, .lib, .lib, .lib, .lib, .lib, .lib, .lib, .lib]).1

/-- Then main sends a message to coroutine 1. -/
def nestedWoken : State :=
  (after State.step WakeDriven nestedWaits [.user (.mput 1 7)]).1

theorem nestedWoken_pass : ∃ pass s, MainPass WakeDriven nestedWoken pass s :=
  ⟨_, _, .of_exec (.user (.resumeChilds none)) .lib
    [.lib, .lib, .lib, .lib, .lib, .lib, .lib, .user .yield, .lib, .lib, .lib, .lib, .lib, .lib,
      .lib] (by decide +kernel) (by decide +kernel) (by decide +kernel) (by decide +kernel)
    (by decide +kernel) (by decide +kernel)⟩

theorem no_lost_wakeup_nested : ∃ tr pass s, RunOf WakeDriven tr nestedWaits ∧
    nestedWaits.chk .msg 1 coroMesgWait = true ∧ nestedWoken.chk .msg 1 coroMesgWait = false ∧
    nestedWoken.waiting 0 = true ∧ MainPass WakeDriven nestedWoken pass s ∧
    .transferred 1 ∈ pass := by
  have hrun : RunOf WakeDriven _ nestedWaits := Transition.run_after (by decide +kernel)
  have hwake : (exec State.step WakeDriven nestedWaits [.user (.mput 1 7)]).isSome = true := by
    decide +kernel
  obtain ⟨hok, hstep⟩ := Transition.step_after hwake
  obtain ⟨pass, s, hmain⟩ := nestedWoken_pass
  exact ⟨_, _, _, hrun, by decide +kernel, by decide +kernel, by decide +kernel, hmain,
    no_lost_wakeup (w := .msg) hrun hok hstep (by decide +kernel) (by decide +kernel)
      (by decide +kernel) .refl List.not_mem_nil hmain⟩

/-! ## What a pass of main serves -/

/-- A coroutine that may run is pending between the passes of main, if its ancestors
that wait were told. -/
theorem Pending.of_ready (hinv : SchedInv s.toSched) (htree : Tree s.toSched [] below)
    (hrooted : Rooted s.toSched) (hlive : c ∈ s.pool) (hattached : s.attached c = true)
    (hstat : s.stat c ≠ coroStatDone) (hready : s.waiting c = false)
    (hheard : ∀ p, Relation.TransGen (fun a b => s.coroParent a = some b) c p →
      s.waiting p = true → s.notified p = true) : ∃ line, Pending s [] below c line := by
  obtain ⟨line, hchain⟩ := hrooted c hlive
  refine ⟨line, hattached, ⟨hlive, hstat, fun hin => ?_⟩, hready, hchain, ?_, .inl ?_⟩
  · exact absurd (htree.resumers_subset hinv hin) List.not_mem_nil
  · exact fun d hd hdc _ => hheard d (hchain.transGen hd hdc)
  · exact fun _ _ _ hin => absurd hin List.not_mem_nil

/-- A complete pass of main serves every coroutine that may run, at any depth, if its
ancestors that wait were told. The waits and flags before the pass can be any. -/
theorem pass_serves_runnable {pass : List Obs} (h : RunOf TreeDriven tr s) (hlive : c ∈ s.pool)
    (hattached : s.attached c = true)
    (hstat : s.stat c = coroStatInit ∨ s.stat c = coroStatWait) (hready : s.waiting c = false)
    (hheard : ∀ p, Relation.TransGen (fun a b => s.coroParent a = some b) c p →
      s.waiting p = true → s.notified p = true)
    (hpass : MainPass WakeDriven s pass s') : .transferred c ∈ pass := by
  obtain ⟨hinv, path, below, htree, hrooted⟩ := h.rooted
  obtain rfl := hpass.path_nil (fun _ _ hok => hok.1) hinv htree
  have hdone : s.stat c ≠ coroStatDone := by
    rcases hstat with hstat | hstat
    · rw [hstat]
      decide
    · rw [hstat]
      decide
  obtain ⟨line, hpending⟩ :=
    Pending.of_ready hinv htree hrooted hlive hattached hdone hready hheard
  exact hpending.served hinv htree hpass

/-- Coroutine 1 was woken, and coroutine 0 above it waits and was told. -/
theorem pass_serves_runnable_nested : ∃ tr pass s, RunOf TreeDriven tr nestedWoken ∧
    nestedWoken.waiting 0 = true ∧ nestedWoken.coroParent 1 = some 0 ∧
    MainPass WakeDriven nestedWoken pass s ∧ .transferred 1 ∈ pass := by
  have hwaits : RunOf WakeDriven _ nestedWaits := Transition.run_after (by decide +kernel)
  have hwoken : Run State.step WakeDriven nestedWaits _ nestedWoken :=
    Transition.run_after (by decide +kernel)
  have hrun := (hwaits.trans hwoken).mono fun _ _ hok => hok.1
  have hup : nestedWoken.coroParent 1 = some 0 := by decide +kernel
  have htop : nestedWoken.coroParent 0 = none := by decide +kernel
  have hheard : ∀ p, Relation.TransGen (fun a b => nestedWoken.coroParent a = some b) 1 p →
      nestedWoken.waiting p = true → nestedWoken.notified p = true := by
    intro p hp _
    obtain ⟨q, hq, hrest⟩ := Relation.TransGen.head'_iff.mp hp
    obtain rfl : 0 = q := Option.some.inj (hup.symm.trans hq)
    rcases Relation.ReflTransGen.cases_head hrest with rfl | ⟨r, hr, _⟩
    · decide +kernel
    · rw [htop] at hr
      cases hr
  obtain ⟨pass, s, hmain⟩ := nestedWoken_pass
  exact ⟨_, _, _, hrun, by decide +kernel, hup, hmain,
    pass_serves_runnable hrun (by decide +kernel) (by decide +kernel)
      (.inr (by decide +kernel)) (by decide +kernel) hheard hmain⟩

/-- Coroutine 0 waits, and coroutine 1 below it has just yielded: no CHLD flag leads
the pass of main to it. -/
def nestedYields : State :=
  (after State.step WakeDriven State.init
    [.user (.create 0 0), .user (.create 1 0), .user (.child 0), .user (.resumeChilds none),
      .lib, .lib, .lib, .lib, .user (.child 1), .user (.mget true), .lib, .lib, .lib, .lib,
      .lib, .user .yield, .lib, .lib, .lib, .lib, .lib, .lib, .lib, .lib, .lib]).1

/-- Main has attached coroutines 0 and 1, which have not run yet. -/
def siblings : State :=
  (after State.step WakeDriven State.init
    [.user (.create 0 0), .user (.create 1 0), .user (.child 0), .user (.child 1)]).1

/-- The waits may be for other coroutines. -/
def AnyWaits (s : State) (a : Act) : Prop := TreeDriven s a ∧ FlagsOwn s a

instance (s : State) (a : Act) : Decidable (AnyWaits s a) :=
  inferInstanceAs (Decidable (_ ∧ _))

/-- A pass of main passes by a coroutine that may run: below a coroutine that waits
and was not told, or when another coroutine starts a wait for it in the pass. -/
theorem pass_misses_runnable :
    (∃ tr pass s', RunOf WakeDriven tr nestedYields ∧ nestedYields.running = none ∧
      1 ∈ nestedYields.pool ∧ nestedYields.attached 1 = true ∧
      nestedYields.stat 1 = coroStatWait ∧ nestedYields.waiting 1 = false ∧
      MainPass WakeDriven nestedYields pass s' ∧ .transferred 1 ∉ pass) ∧
    ∃ tr pass s', RunOf WakeDriven tr siblings ∧ siblings.running = none ∧
      1 ∈ siblings.pool ∧ siblings.attached 1 = true ∧ siblings.coroParent 1 = none ∧
      siblings.stat 1 = coroStatInit ∧ siblings.waiting 1 = false ∧
      MainPass AnyWaits siblings pass s' ∧ .transferred 1 ∉ pass := by
  constructor
  · have hrun : RunOf WakeDriven _ nestedYields := Transition.run_after (by decide +kernel)
    have hmain : MainPass WakeDriven nestedYields _ _ :=
      .of_exec (.user (.resumeChilds none)) .lib [.lib, .lib, .lib, .lib] (by decide +kernel)
        (by decide +kernel) (by decide +kernel) (by decide +kernel) (by decide +kernel)
        (by decide +kernel)
    exact ⟨_, _, _, hrun, by decide +kernel, by decide +kernel, by decide +kernel,
      by decide +kernel, by decide +kernel, hmain, by decide +kernel⟩
  · have hrun : RunOf WakeDriven _ siblings := Transition.run_after (by decide +kernel)
    have hmain : MainPass AnyWaits siblings _ _ :=
      .of_exec (.user (.resumeChilds none)) .lib
        [.lib, .lib, .lib, .lib, .user (.setIo 3 evRead 0 (some 1)), .lib, .lib, .lib, .lib, .lib,
          .lib, .lib, .lib] (by decide +kernel) (by decide +kernel) (by decide +kernel)
        (by decide +kernel) (by decide +kernel) (by decide +kernel)
    exact ⟨_, _, _, hrun, by decide +kernel, by decide +kernel, by decide +kernel,
      by decide +kernel, by decide +kernel, by decide +kernel, hmain, by decide +kernel⟩

end BoostCoro.Coroutine
