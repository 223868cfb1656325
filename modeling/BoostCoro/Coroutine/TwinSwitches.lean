import BoostCoro.Coroutine.TwinCalls
/-!
# Switches of context in twins

Control goes to the same coroutine in both, or back to main in the one and to the
coroutine that stands in for it in the other.
-/

namespace BoostCoro.Coroutine

open Fallible (Both)

/-! ## When a switch fails -/

namespace Sched

variable {s : Sched} {c p : CoroId}

theorem initToWait_of_ready (hstat : s.stat c = coroStatInit ∨ s.stat c = coroStatWait) :
    (s.initToWait c).stat c = coroStatWait := by
  unfold initToWait
  rcases hstat with h | h
  · rw [if_pos h]
    show Function.update s.stat c (s.stat c <<< 1) c = coroStatWait
    rw [Function.update_self, h]
    rfl
  · rw [if_neg (by rw [h]; decide), h]

theorem initToWait_pool : (s.initToWait c).pool = s.pool := by
  unfold initToWait
  split <;> rfl

theorem busyToWait_stat_of_ne (hpc : p ≠ c) : (s.busyToWait c).stat p = s.stat p := by
  unfold busyToWait
  split
  · exact Function.update_of_ne hpc ..
  · rfl

theorem busyToWait_frame : s.busyToWait c = { s with stat := (s.busyToWait c).stat } := by
  unfold busyToWait
  split <;> rfl

theorem transfer_eq (hbusy : ∀ p, s.running = some p → s.stat p = coroStatBusy)
    (hlive : ∀ p, s.running = some p → p ∈ s.pool)
    (hstack : ∀ p, s.running = some p → s.stack (some p) ≠ []) :
    s.transfer c s.running =
      if c ∈ s.pool then
        if s.stat c = coroStatInit ∨ s.stat c = coroStatWait then .ok (s.switchTo c)
        else .error .assertTransfer
      else .error .destroyed := by
  by_cases hc : c ∈ s.pool
  · rw [if_pos hc]
    have hcheck : s.checkLive c = .ok () := if_pos hc
    by_cases hready : s.stat c = coroStatInit ∨ s.stat c = coroStatWait
    · rw [if_pos hready]
      have hok : ∃ s', s.transfer c s.running = .ok s' := by
        unfold transfer
        rw [hcheck, Fallible.ok_bind, if_neg (not_not.mpr (initToWait_of_ready hready))]
        cases hrun : s.running with
        | none => exact ⟨_, rfl⟩
        | some p =>
            have hp : p ∈ (s.initToWait c).pool := by
              rw [initToWait_pool]
              exact hlive p hrun
            exact ⟨_, Fallible.bind_eq_ok.mpr ⟨(), if_pos hp, rfl⟩⟩
      obtain ⟨s', hs'⟩ := hok
      rw [hs', (transfer_running hbusy hstack hs').2.2]
    · rw [if_neg hready]
      have hstat : (s.initToWait c).stat c ≠ coroStatWait := fun h =>
        hready (setStat_initToWait h).1
      unfold transfer
      rw [hcheck, Fallible.ok_bind, if_pos hstat]
  · rw [if_neg hc]
    unfold transfer
    rw [checkLive, if_neg hc, Fallible.error_bind]

/-- `transfer_pre` fails when the resumer is destroyed, or does not wait. -/
theorem transferPre_eq (hrun : s.running = some c) (hlive : c ∈ s.pool)
    (hstack : ∀ x ∈ s.pool, s.stat x = coroStatWait → s.stack (some x) ≠ [])
    (hself : s.stack (some c) ≠ []) (hpre : ∀ p, s.coroPre c = some p → p ≠ c) :
    s.transferPre c =
      match s.coroPre c with
      | none => .ok (s.switchBack c)
      | some p =>
        if p ∈ s.pool then
          if s.stat p = coroStatWait then .ok (s.switchBack c) else .error .assertTransferPre
        else .error .destroyed := by
  have hcheck : s.checkLive c = .ok () := if_pos hlive
  have hfound : ∀ {s'}, s.transferPre c = .ok s' → s' = s.switchBack c := fun h =>
    (transferPre_running hrun hstack hself h).2
  cases hp : s.coroPre c with
  | none =>
      have hok : ∃ s', s.transferPre c = .ok s' := by
        unfold transferPre
        rw [hcheck, Fallible.ok_bind, busyToWait_frame]
        simp only [hp]
        exact ⟨_, rfl⟩
      obtain ⟨s', hs'⟩ := hok
      rw [hs', hfound hs']
  | some p =>
      have hstat := busyToWait_stat_of_ne (s := s) (hpre p hp)
      dsimp only
      by_cases hplive : p ∈ s.pool
      · rw [if_pos hplive]
        by_cases hpwait : s.stat p = coroStatWait
        · have hok : ∃ s', s.transferPre c = .ok s' := by
            unfold transferPre
            rw [hcheck, Fallible.ok_bind, busyToWait_frame]
            simp only [hp, checkLive, if_pos hplive, Fallible.ok_bind]
            rw [if_neg (by rw [hstat]; exact not_not.mpr hpwait)]
            exact ⟨_, rfl⟩
          obtain ⟨s', hs'⟩ := hok
          rw [if_pos hpwait, hs', hfound hs']
        · rw [if_neg hpwait]
          unfold transferPre
          rw [hcheck, Fallible.ok_bind, busyToWait_frame]
          simp only [hp, checkLive, if_pos hplive, Fallible.ok_bind]
          rw [if_pos (by rwa [hstat])]
      · rw [if_neg hplive]
        unfold transferPre
        rw [hcheck, Fallible.ok_bind, busyToWait_frame]
        simp only [hp, checkLive, if_neg hplive, Fallible.error_bind]

end Sched

variable {q c d : CoroId} {aside : List Ctx} {stale : List CoroId} {since : CoroId → Prop}
  {s m n : State} {rest fs : List Frame}

theorem SchedInv.transfer_eq (hinv : SchedInv s.toSched) (c : CoroId) (hfs : fs ≠ []) :
    (s.setStack fs).transfer c s.running =
      if c ∈ s.pool then
        if s.stat c = coroStatInit ∨ s.stat c = coroStatWait then
          .ok ((s.toSched.setStack fs).switchTo c)
        else .error .assertTransfer
      else .error .destroyed := by
  refine Sched.transfer_eq (s := s.toSched.setStack fs) (fun p hrun => hinv.running_busy hrun)
    (fun p hrun => hinv.live p hrun) fun p hrun => ?_
  have hrun : s.running = some p := hrun
  rw [setStack_stack, if_pos hrun.symm]
  exact hfs

/-- A coroutine that waits has a stack. -/
theorem transferPre_setStack (hrun : s.running = some c) (hlive : c ∈ s.pool)
    (hpre : s.coroPre c ≠ some c)
    (hstack : ∀ x ∈ s.pool, s.stat x = coroStatWait → s.stack (some x) ≠ []) (hfs : fs ≠ []) :
    (s.setStack fs).transferPre c =
      match s.coroPre c with
      | none => .ok ((s.toSched.setStack fs).switchBack c)
      | some p =>
        if p ∈ s.pool then
          if s.stat p = coroStatWait then .ok ((s.toSched.setStack fs).switchBack c)
          else .error .assertTransferPre
        else .error .destroyed := by
  refine Sched.transferPre_eq (s := s.toSched.setStack fs) hrun hlive (fun x hx hwait => ?_) ?_
    fun p hp hpc => hpre (hpc ▸ hp)
  · rw [setStack_stack]
    split
    · exact hfs
    · exact hstack x hx hwait
  · rw [setStack_stack, if_pos hrun.symm]
    exact hfs

namespace Twins

/-! ## `transfer` -/

theorem running_iff (h : Twins q aside stale since m n) (hc : some c ∉ aside) :
    n.running = some c ↔ m.running = some c := by
  rw [h.running]
  cases m.running with
  | none => exact iff_of_false (fun heq => hc (heq ▸ h.self)) nofun
  | some d => rfl

theorem standIn_eq_some (h : Twins q aside stale since m n) (hc : some c ∉ aside) {x : Ctx} :
    standIn q x = some c ↔ x = some c := by
  cases x with
  | none => exact iff_of_false (fun heq => hc (heq ▸ h.self)) nofun
  | some d => rfl

theorem switchTo (h : Twins q aside stale since m n) (hc : some c ∉ aside) :
    Twins q aside stale (fun d => d = c ∨ since d) { m with toSched := m.toSched.switchTo c }
      { n with toSched := n.toSched.switchTo c } where
  pool := h.pool
  coroParent := h.coroParent
  coroMessages := h.coroMessages
  reactor := h.reactor
  current := rfl
  running := rfl
  stat := fun d hd => by
    show (n.toSched.switchTo c).stat d = (m.toSched.switchTo c).stat d
    rw [SchedInv.switchTo_stat, SchedInv.switchTo_stat, h.stat d hd]
    exact if_congr (h.running_iff hd) rfl rfl
  childs := h.childs
  stack := fun x hx => by
    show (n.toSched.switchTo c).stack _ = standInStack q x ((m.toSched.switchTo c).stack x)
    rw [SchedInv.switchTo_stack, SchedInv.switchTo_stack, h.stack x hx]
    by_cases hxc : x = some c
    · subst hxc
      by_cases hnil : m.stack (some c) = []
      · rw [hnil, if_pos ⟨rfl, rfl⟩, if_pos ⟨rfl, rfl⟩]
        rfl
      · have hnil' : standInStack q (some c) (m.stack (some c)) ≠ [] := by
          simp [standInStack, hnil]
        rw [if_neg fun heq => hnil' heq.2, if_neg fun heq => hnil heq.2]
    · rw [if_neg fun heq => hxc ((h.standIn_eq_some hc).mp heq.1), if_neg fun heq => hxc heq.1]
  passing := fun f hf => by
    have hf : f ∈ (m.toSched.switchTo c).stack none := hf
    rw [SchedInv.switchTo_stack, if_neg fun heq => nomatch heq.1] at hf
    exact h.passing f hf
  flags := h.flags
  pre := fun d hd => by
    show Function.update n.coroPre c n.running d =
      standIn q (Function.update m.coroPre c m.running d)
    by_cases hdc : d = c
    · rw [hdc, Function.update_self, Function.update_self, h.running]
    · rw [Function.update_of_ne hdc, Function.update_of_ne hdc]
      exact h.pre d (hd.resolve_left hdc)
  preSince := fun d e hd he => by
    show (e = c ∨ since e) ∨ e ∉ m.pool ∨ (m.toSched.switchTo c).stat e = coroStatInit
    have he : Function.update m.coroPre c m.running d = some e := he
    by_cases hrun : m.running = some e
    · exact .inl (.inr (h.runs e hrun))
    · by_cases hdc : d = c
      · rw [hdc, Function.update_self] at he
        exact absurd he hrun
      · rw [Function.update_of_ne hdc] at he
        rw [SchedInv.switchTo_stat, if_neg hrun]
        by_cases hec : e = c
        · exact .inl (.inl hec)
        · rw [if_neg hec]
          exact (h.preSince d e (hd.resolve_left hdc) he).imp_left .inr
  runs := fun d hd => .inl (Option.some.inj hd).symm
  apart := fun d hd => hd.elim (fun heq => heq ▸ hc) (h.apart d)
  main := h.main
  self := h.self
  asleep := fun d hd => by
    obtain ⟨hlive, hwait, hinit, hdone⟩ := h.asleep d hd
    have hrun : m.running ≠ some d := fun heq => h.apart d (h.runs d heq) hd
    have hdc : d ≠ c := fun heq => hc (heq ▸ hd)
    show d ∈ m.pool ∧ (m.toSched.switchTo c).stat d = coroStatWait ∧
      (n.toSched.switchTo c).stat d ≠ coroStatInit ∧ (n.toSched.switchTo c).stat d ≠ coroStatDone
    rw [SchedInv.switchTo_stat, SchedInv.switchTo_stat, if_neg hrun, if_neg hdc, if_neg hdc]
    refine ⟨hlive, hwait, ?_⟩
    split
    · decide
    · exact ⟨hinit, hdone⟩

theorem resumeTransfer (h : Twins q aside stale since m n) (hm : SchedInv m.toSched)
    (hn : SchedInv n.toSched) (hrest : m.running = none → ∀ f ∈ rest, f.isPass = true)
    (hc : some c ∉ aside) :
    Both (TwinSteps q aside stale m)
      (m.resumeTransfer m.running c rest)
      (n.resumeTransfer n.running c (standInStack q m.running rest)) := by
  have hset := h.setStack (.resume m.running c .back :: rest)
    fun hrun => List.forall_mem_cons.mpr ⟨rfl, hrest hrun⟩
  refine (h.checkLive c).bind fun _ _ _ hlive => ?_
  refine .ite (by rw [h.waiting hlive]) (fun _ => .ok ⟨since, h.setStack rest hrest, rfl⟩)
    fun _ => ?_
  rw [hm.transfer_eq c (List.cons_ne_nil _ _), hn.transfer_eq c (List.cons_ne_nil _ _), h.pool,
    h.stat c hc, h.running]
  refine Both.bind (R := fun t t' => Twins q aside stale (fun d => d = c ∨ since d)
    { m with toSched := t } { n with toSched := t' }) ?_ fun t t' _ htwins => .ok ⟨_, htwins, rfl⟩
  exact .ite .rfl (fun _ => .ite .rfl (fun _ => .ok (hset.switchTo hc)) fun _ => .error _)
    fun _ => .error _

/-! ## `transfer_pre` -/

/-- The running coroutine hands control back to its resumer, which can take it. -/
theorem switchBack (h : Twins q aside stale since m n) (hrun : m.running = some c)
    (hready : ∀ p, m.coroPre c = some p → p ∈ m.pool ∧ m.stat p = coroStatWait) :
    Twins q aside stale since { m with toSched := m.toSched.switchBack c }
      { n with toSched := n.toSched.switchBack c } := by
  have hc := h.runs c hrun
  have hpre := h.pre c hc
  have hsince : ∀ p, m.coroPre c = some p → since p := by
    intro p hp
    obtain ⟨hlive, hwait⟩ := hready p hp
    rcases h.preSince c p hc hp with hp | hdead | hinit
    · exact hp
    · exact absurd hlive hdead
    · rw [hwait] at hinit
      exact absurd hinit (by decide)
  exact {
    h with
    current := hpre
    running := hpre
    stat := fun d hd => by
      show (n.toSched.switchBack c).stat d = (m.toSched.switchBack c).stat d
      rw [SchedInv.switchBack_stat, SchedInv.switchBack_stat, hpre, h.stat d hd,
        h.stat c (h.apart c hc)]
      exact if_congr (h.standIn_eq_some hd) rfl rfl
    preSince := fun d e hd he => by
      show since e ∨ e ∉ m.pool ∨ (m.toSched.switchBack c).stat e = coroStatInit
      by_cases hpe : m.coroPre c = some e
      · exact .inl (hsince e hpe)
      · by_cases hec : e = c
        · exact .inl (hec ▸ hc)
        · rw [SchedInv.switchBack_stat, if_neg hpe, if_neg fun heq => hec heq.1]
          exact h.preSince d e hd he
    runs := hsince
    asleep := fun d hd => by
      obtain ⟨hlive, hwait, hinit, hdone⟩ := h.asleep d hd
      have hpd : m.coroPre c ≠ some d := fun heq => h.apart d (hsince d heq) hd
      have hdc : d ≠ c := fun heq => h.apart c hc (heq ▸ hd)
      show d ∈ m.pool ∧ (m.toSched.switchBack c).stat d = coroStatWait ∧
        (n.toSched.switchBack c).stat d ≠ coroStatInit ∧
          (n.toSched.switchBack c).stat d ≠ coroStatDone
      rw [SchedInv.switchBack_stat, SchedInv.switchBack_stat, if_neg hpd,
        if_neg fun heq => hdc heq.1]
      refine ⟨hlive, hwait, ?_⟩
      by_cases hpd' : n.coroPre c = some d
      · rw [if_pos hpd']
        decide
      · rw [if_neg hpd', if_neg fun heq => hdc heq.1]
        exact ⟨hinit, hdone⟩ }

/-- The resumer of a coroutine resumed since the pass began is the same in both, or it
is whoever makes the pass. -/
theorem resumer_wait (h : Twins q aside stale since m n) (hc : since c) {p : CoroId}
    (hp : m.coroPre c = some p) (hlive : p ∈ m.pool) : some p ∉ aside := by
  rcases h.preSince c p hc hp with hp | hdead | hinit
  · exact h.apart p hp
  · exact absurd hlive hdead
  · refine h.not_aside_of_stat ?_
    rw [hinit]
    decide

theorem handBack (h : Twins q aside stale since m n) (s : State) (hrun : m.running = some c)
    (hlive : c ∈ m.pool) (hpre : m.coroPre c ≠ some c) (hself : n.stat q = coroStatWait)
    (hm : ∀ x ∈ m.pool, m.stat x = coroStatWait → m.stack (some x) ≠ [])
    (hn : ∀ x ∈ n.pool, n.stat x = coroStatWait → n.stack (some x) ≠ []) (hfs : fs ≠ []) :
    Both (TwinSteps q aside stale s) (m.handBack c fs)
      (n.handBack c (standInStack q (some c) fs)) := by
  have hc := h.runs c hrun
  have hrun' : n.running = some c := by rw [h.running, hrun, standIn_some]
  have hpre' : n.coroPre c = standIn q (m.coroPre c) := h.pre c hc
  have hset := h.setStack fs fun hnone => nomatch hrun.symm.trans hnone
  rw [hrun] at hset
  have hne : n.coroPre c ≠ some c := by
    rw [hpre']
    exact fun heq => hpre ((h.standIn_eq_some (h.apart c hc)).mp heq)
  have hfs' : standInStack q (some c) fs ≠ [] := by simp [standInStack, hfs]
  have hlive' : c ∈ n.pool := by rwa [h.pool]
  unfold State.handBack
  rw [transferPre_setStack hrun hlive hpre hm hfs, transferPre_setStack hrun' hlive' hne hn hfs',
    hpre', h.pool]
  cases hp : m.coroPre c with
  | none =>
      have hq := (h.asleep q h.self).1
      rw [standIn_none]
      dsimp only
      rw [if_pos hq, if_pos hself]
      refine .ok ⟨since, hset.switchBack hrun (fun p heq => ?_), ?_⟩
      · exact nomatch hp.symm.trans heq
      · rfl
  | some p =>
      rw [standIn_some]
      by_cases hplive : p ∈ m.pool
      · have hstat := h.stat p (h.resumer_wait hc hp hplive)
        dsimp only
        rw [if_pos hplive, if_pos hplive, hstat]
        refine Both.bind (R := fun t t' => Twins q aside stale since { m with toSched := t }
          { n with toSched := t' }) (.ite .rfl (fun hwait => ?_) fun _ => .error _)
          fun t t' _ htwins => .ok ⟨_, htwins, ?_⟩
        · refine .ok (hset.switchBack hrun fun r hr => ?_)
          obtain rfl : p = r := Option.some.inj (hp.symm.trans hr)
          exact ⟨hplive, hwait⟩
        · rfl
      · dsimp only
        rw [if_neg hplive, if_neg hplive]
        exact .error _

end Twins

end BoostCoro.Coroutine
