import BoostCoro.Coroutine.Flags
/-!
# How a call can fail

For each function of the machine, the faults that it can end in and what the
state is then like.
-/

namespace BoostCoro.Coroutine

open Fallible (Faults)

variable {P : Fault → Prop}

namespace Sched

variable {s : Sched} {c : CoroId}

theorem checkLive_faults (hd : c ∉ s.pool → P .destroyed) : Faults P (s.checkLive c) := by
  unfold checkLive
  exact .ite (fun _ => .ok _) fun hc => Faults.error.mpr (hd hc)

theorem transfer_faults {pre : Ctx} (hd : c ∉ s.pool → P .destroyed)
    (hp : ∀ p, pre = some p → p ∉ s.pool → P .destroyed)
    (ha : s.stat c ≠ coroStatInit → s.stat c ≠ coroStatWait → P .assertTransfer) :
    Faults P (s.transfer c pre) := by
  refine .bind (checkLive_faults hd) fun _ _ => ?_
  refine .ite (fun hne => ?_) fun _ => ?_
  · refine Faults.error.mpr (ha (fun hinit => ?_) fun hwait => ?_)
    · refine hne ?_
      rw [initToWait, if_pos hinit]
      simp [setStat, hinit, coroStatInit, coroStatWait]
    · refine hne ?_
      rw [initToWait, if_neg (by rw [hwait]; decide), hwait]
  · have hpool : (s.initToWait c).pool = s.pool := by
      unfold initToWait
      split <;> rfl
    cases pre with
    | none => exact .ok _
    | some p =>
        refine .bind (checkLive_faults fun hlive => hp p rfl ?_) fun _ _ => .ok _
        exact fun h => hlive (by show p ∈ (s.initToWait c).pool; rwa [hpool])

theorem transferPre_faults (hd : c ∉ s.pool → P .destroyed)
    (hp : ∀ p, s.coroPre c = some p → p ∉ s.pool → P .destroyed)
    (ha : ∀ p, s.coroPre c = some p → (s.busyToWait c).stat p ≠ coroStatWait →
      P .assertTransferPre) : Faults P (s.transferPre c) := by
  have hsame : (s.busyToWait c).pool = s.pool ∧ (s.busyToWait c).coroPre = s.coroPre := by
    unfold busyToWait
    split <;> exact ⟨rfl, rfl⟩
  refine .bind (checkLive_faults hd) fun _ _ => ?_
  cases hpre : s.coroPre c with
  | none =>
      simp only [hsame.2, hpre]
      exact .ok _
  | some p =>
      simp only [hsame.2, hpre]
      refine .bind (checkLive_faults fun hlive => hp p hpre ?_) fun _ _ => ?_
      · exact fun h => hlive (by show p ∈ (s.busyToWait c).pool; rwa [hsame.1])
      · exact .ite (fun hne => Faults.error.mpr (ha p hpre hne)) fun _ => .ok _

end Sched

namespace State

variable {s : State} {w : FlagWord} {c q : CoroId} {m tested : StatT}

/-! ## Flags -/

theorem addFlag_faults {n : Nat} (hd : P .destroyed) (ho : P .stackOverflow) :
    Faults P (addFlag w n s c m) := by
  induction n generalizing s c m with
  | zero => exact Faults.error.mpr ho
  | succ n ih =>
      refine .bind (Sched.checkLive_faults fun _ => hd) fun _ _ => ?_
      dsimp only
      split
      · exact .ok _
      · exact .ite (fun _ => .ok _) fun _ => ih

theorem notifyParent_faults (hd : P .destroyed) (ho : P .stackOverflow) :
    Faults P (s.notifyParent w c) := by
  unfold notifyParent
  split
  · exact .ok _
  · exact addFlag_faults hd ho

theorem setFlag_faults (hd : P .destroyed) (ho : P .stackOverflow) :
    Faults P (setFlag w s c m) :=
  .bind (Sched.checkLive_faults fun _ => hd) fun _ _ =>
    .ite (fun _ => .ok _) fun _ => notifyParent_faults hd ho

theorem delFlag_faults (hd : P .destroyed) (ho : P .stackOverflow) :
    Faults P (delFlag w tested s c m) :=
  .bind (Sched.checkLive_faults fun _ => hd) fun _ _ =>
    .bind (.ite (fun _ => notifyParent_faults hd ho) fun _ => .ok _) fun _ _ => .ok _

/-- The start of a wait and the end of a notice climb to nobody. -/
theorem setFlag_wait_faults (hd : c ∉ s.pool → P .destroyed) :
    Faults P (setFlag w s c coroEvetWait) := by
  refine .bind (Sched.checkLive_faults hd) fun _ _ => ?_
  rw [FlagWord.wait_eq]
  exact .ok _

theorem delFlag_chld_faults (hd : c ∉ s.pool → P .destroyed) :
    Faults P (delFlag w tested s c coroEvetChld) := by
  refine .bind (Sched.checkLive_faults hd) fun _ _ => .bind ?_ fun _ _ => .ok _
  unfold notifyEnd
  rw [FlagWord.wait_eq, if_neg fun h => absurd h.2 (by decide)]
  exact .ok _

/-! ## Calls of the scheduler -/

theorem checkOwner_faults {cur : Ctx} (hd : ∀ d, cur = some d → d ∉ s.pool → P .destroyed) :
    Faults P (s.checkOwner cur) := by
  cases cur with
  | none => exact .ok _
  | some d => exact Sched.checkLive_faults (hd d rfl)

theorem callResumeChildsOf_faults {coro : Option CoroId}
    (hd : coro.getD q ∉ s.pool → P .destroyed) : Faults P (s.callResumeChildsOf q coro) := by
  refine .ite (fun _ => .ok _) fun _ => ?_
  refine .bind (delFlag_chld_faults hd) fun s₁ h₁ => ?_
  obtain ⟨_, rfl⟩ := delFlag_chld h₁
  exact .bind (delFlag_chld_faults hd) fun _ _ => .ok _

theorem callResumeChilds_faults {self : Ctx} {coro : Option CoroId}
    (hd : ∀ d, coro.or self = some d → d ∉ s.pool → P .destroyed) :
    Faults P (s.callResumeChilds self coro) := by
  cases self with
  | none => exact .bind (checkOwner_faults fun d hd' => hd d (by rw [hd']; rfl)) fun _ _ => .ok _
  | some q => exact callResumeChildsOf_faults (hd _ (by cases coro <;> rfl))

theorem handBack_faults {fs : List Frame} (hd : c ∉ s.pool → P .destroyed)
    (hp : ∀ p, s.coroPre c = some p → p ∉ s.pool → P .destroyed)
    (ha : ∀ p, s.coroPre c = some p → (s.busyToWait c).stat p ≠ coroStatWait →
      P .assertTransferPre) : Faults P (s.handBack c fs) := by
  refine .bind (Sched.transferPre_faults hd hp fun p hpre hne => ha p hpre ?_) fun _ _ => .ok _
  have hstat : ((s.setStack fs).busyToWait c).stat = (s.busyToWait c).stat := by
    unfold Sched.busyToWait
    show (if s.stat c = _ then _ else _ : Sched).stat = _
    split <;> rfl
  rwa [hstat] at hne

/-! ## Calls of the user -/

theorem eventDel_faults {r : Coreactor} {ptr : Option Block} (hn : ptr = none → P .nullPointer)
    (hb : ∀ b, ptr = some b → r.event b = none → P .badEvent) : Faults P (r.eventDel ptr) := by
  cases ptr with
  | none => exact Faults.error.mpr (hn rfl)
  | some b =>
      simp only [Coreactor.eventDel]
      split
      next he => exact Faults.error.mpr (hb b rfl he)
      · exact .ok _

theorem free_faults {r : Coreactor} {b : Block}
    (hf : b ∉ r.eventAllocator.held → P .doubleFree) : Faults P (r.free (some b)) :=
  .ite (fun _ => .ok _) fun hheld => Faults.error.mpr (hf hheld)

theorem release_faults {r : Coreactor} {b : Block} (hb : r.event b = none → P .badEvent)
    (hf : b ∉ r.eventAllocator.held → P .doubleFree) : Faults P (r.release c b) := by
  refine .bind (eventDel_faults nofun fun _ hptr he => ?_) fun r₁ hdel => ?_
  · obtain rfl := Option.some.inj hptr
    exact hb he
  · obtain ⟨_, _, _, _, rfl⟩ := Coreactor.eventDel_ok hdel
    exact free_faults hf

theorem callYield_faults (hd : P .destroyed) : Faults P s.callYield := by
  unfold callYield
  split
  · exact .ok _
  · exact callResumeChildsOf_faults fun _ => hd

theorem callWait_faults {spec : WaitSpec} {b : Block} {r : Coreactor} (hd : P .destroyed) :
    Faults P (s.callWait c spec b r) :=
  .bind (callYield_faults hd) fun _ _ => .ok _

theorem target_faults {coro : Option CoroId} (hn : P .nullPointer) :
    Faults P (s.target coro) := by
  unfold target
  split
  · exact Faults.error.mpr hn
  · exact .ok _

theorem setIo_faults {fd : Int} {mask : EventMask} {timeout : Int} {coro : Option CoroId}
    (hn : P .nullPointer) (hd : P .destroyed) (ho : P .stackOverflow) :
    Faults P (s.setIo fd mask timeout coro) := by
  refine .bind (target_faults hn) fun _ _ => .bind (setFlag_faults hd ho) fun s₁ _ =>
    .bind ?_ fun _ _ => callWait_faults hd
  unfold Coreactor.setIo
  dsimp only
  split
  · refine .bind (free_faults fun hheld => absurd ?_ hheld) fun _ _ => .ok _
    exact s₁.reactor.eventAllocator.malloc_held ▸ List.mem_cons_self
  · exact .ok _

theorem setTimeout_faults {timeout : Int} {coro : Option CoroId}
    (hn : P .nullPointer) (hd : P .destroyed) (ho : P .stackOverflow) :
    Faults P (s.setTimeout timeout coro) :=
  .ite (fun _ => .ok _) fun _ => .bind (target_faults hn) fun _ _ =>
    .bind (setFlag_faults hd ho) fun _ _ => callWait_faults hd

theorem setSignal_faults {signal : Int} {coro : Option CoroId}
    (hn : P .nullPointer) (hd : P .destroyed) (ho : P .stackOverflow) :
    Faults P (s.setSignal signal coro) :=
  .bind (target_faults hn) fun _ _ => .bind (setFlag_faults hd ho) fun _ _ => callWait_faults hd

theorem mput_faults {m : MessagePtr} (hd : P .destroyed) (ho : P .stackOverflow) :
    Faults P (s.mput c m) :=
  .bind (delFlag_faults hd ho) fun _ _ => .ok _

theorem broadcastLoop_faults {p : CoroId} {m : MessagePtr} {n : Nat} (hn : P .nullPointer)
    (hd : P .destroyed) (ho : P .stackOverflow) : Faults P (broadcastLoop p m n s) := by
  induction n generalizing s with
  | zero => exact .ok _
  | succ n ih =>
      simp only [broadcastLoop]
      split
      · exact Faults.error.mpr hn
      · exact .bind (mput_faults hd ho) fun _ _ => .bind ih fun _ _ => .ok _

theorem cancel_faults {coro : Option CoroId} (hn : P .nullPointer) (hd : P .destroyed)
    (ho : P .stackOverflow)
    (hb : ∀ c b, s.reactor.triggers c = some (some b) → s.reactor.event b = none → P .badEvent) :
    Faults P (s.cancel coro) := by
  unfold cancel
  split
  · exact .ok _
  next c _ =>
    split
    · exact .ok _
    next ptr hptr =>
      refine .bind (delFlag_faults hd ho) fun s₁ hdel => .bind (addFlag_faults hd ho) fun s₂ hadd =>
        .bind (eventDel_faults (fun _ => hn) fun b hb' he => ?_) fun _ _ => .ok _
      rw [addFlag_frame hadd, delFlag_frame hdel] at he
      exact hb c b (hb' ▸ hptr) he

theorem fire_faults {b : Block} {watcher : Watcher} {revents : EventMask} {x : Outcome}
    (hd : P .destroyed) (ho : P .stackOverflow) (h : s.fire b watcher revents = some x) :
    Faults P x := by
  unfold fire at h
  split at h
  · cases h
  · split at h
    · obtain rfl := Option.some.inj h
      refine .bind (.bind (delFlag_faults hd ho) fun _ _ => ?_) fun _ _ => .ok _
      exact .ite (fun _ => addFlag_faults hd ho) fun _ => .ok _
    · cases h

theorem child_faults (hd : P .destroyed) : Faults P (s.child c) := by
  unfold child
  split
  · exact .bind (Sched.checkLive_faults fun _ => hd) fun _ _ => .ok _
  · exact .ok _

theorem setter_faults {op : Setter} (hd : P .destroyed) (ho : P .stackOverflow) :
    Faults P (s.setter op w c m) := by
  cases op with
  | set => cases w <;> exact setFlag_faults hd ho
  | add => cases w <;> exact addFlag_faults hd ho
  | del => cases w <;> exact delFlag_faults hd ho

/-- A call of the user fails in none of the assertions of the scheduler, and it frees
no block twice. -/
theorem stepUser_faults {u : User} {x : Outcome}
    (hP : ∀ f, f ≠ .assertTransferPre → f ≠ .badEvent → f ≠ .doubleFree → P f)
    (hb : ∀ c b, s.reactor.triggers c = some (some b) → s.reactor.event b = none → P .badEvent)
    (h : s.stepUser u = some x) : Faults P x := by
  have hn : P .nullPointer := hP _ nofun nofun nofun
  have hd : P .destroyed := hP _ nofun nofun nofun
  have ho : P .stackOverflow := hP _ nofun nofun nofun
  cases u with
  | create c raw =>
      simp only [stepUser, create] at h
      split at h
      · cases h
      · obtain rfl := Option.some.inj h
        exact .ok _
  | child c => exact Option.some.inj h ▸ child_faults hd
  | resume coro =>
      obtain rfl := Option.some.inj h
      cases coro with
      | some c => exact .ok _
      | none =>
          simp only [callResume]
          split <;> exact .ok _
  | resumeChilds coro => exact Option.some.inj h ▸ callResumeChilds_faults fun _ _ _ => hd
  | yield => exact Option.some.inj h ▸ callYield_faults hd
  | «return» =>
      simp only [stepUser, bodyReturn] at h
      split at h
      · split at h
        · obtain rfl := Option.some.inj h
          exact .ok _
        · obtain rfl := Option.some.inj h
          exact Faults.error.mpr (hP _ nofun nofun nofun)
      · cases h
  | mput c m => exact Option.some.inj h ▸ mput_faults hd ho
  | mbroadcast c m =>
      exact Option.some.inj h ▸ .bind (Sched.checkLive_faults fun _ => hd) fun _ _ =>
        broadcastLoop_faults hn hd ho
  | mget yieldEnable =>
      obtain rfl := Option.some.inj h
      unfold callMget
      split
      · exact .ok _
      · refine .ite (fun _ => .ok _) fun _ => ?_
        split <;> exact .ok _
  | setIo fd mask timeout coro => exact Option.some.inj h ▸ setIo_faults hn hd ho
  | setTimeout timeout coro => exact Option.some.inj h ▸ setTimeout_faults hn hd ho
  | setSignal signal coro => exact Option.some.inj h ▸ setSignal_faults hn hd ho
  | cancel coro => exact Option.some.inj h ▸ cancel_faults hn hd ho hb
  | fire b w revents => exact fire_faults hd ho h
  | flag op w c m =>
      obtain rfl := Option.some.inj h
      have hset : Faults P (s.setter op w c m) := setter_faults hd ho
      cases hs : s.setter op w c m with
      | error e => exact Faults.error.mpr (hset e hs)
      | ok _ => exact .ok _

/-! ## The innermost call -/

theorem passTurn_faults {self cur : Ctx} {loop : Nat} {rest : List Frame} (hd : P .destroyed)
    (hn : s.coroChilds cur = [] → P .nullPointer) :
    Faults P (s.passTurn self cur (loop + 1) rest) := by
  refine .bind (checkOwner_faults fun _ _ _ => hd) fun _ _ => ?_
  split
  next hnil => exact Faults.error.mpr (hn hnil)
  next =>
    exact .bind (Sched.checkLive_faults fun _ => hd) fun _ _ => .ite (fun _ => .ok _) fun _ => .ok _

theorem stepFrame_faults {top : Frame} {rest : List Frame}
    (hP : ∀ f, f ≠ .assertTransferPre → f ≠ .badEvent → f ≠ .doubleFree → P f)
    (hyield : ∀ q fs, top = .yield q .childs → Faults P (s.handBack q fs))
    (hfinish : ∀ c fs, top = .execute c .childs →
      Faults P (State.handBack { s with toSched := s.setStat c coroStatDone } c fs))
    (hwait : ∀ c spec b, top = .wait c spec b → spec.persists = false →
      (s.reactor.event b = none → P .badEvent) ∧
        (b ∉ s.reactor.eventAllocator.held → P .doubleFree)) :
    Faults P (s.stepFrame rest top) := by
  have hd : P .destroyed := hP _ nofun nofun nofun
  have hlive : ∀ {t : Sched} {d : CoroId}, Faults P (t.checkLive d) :=
    Sched.checkLive_faults fun _ => hd
  cases top with
  | resume self coro pc =>
      cases pc with
      | entry =>
          refine .bind hlive fun _ _ => .ite (fun _ => .ok _) fun _ =>
            .ite (fun _ => ?_) fun _ => .ok _
          exact .ite (fun _ => callResumeChilds_faults fun _ _ _ => hd) fun _ => .ok _
      | transfer =>
          refine .bind hlive fun _ _ => .ite (fun _ => .ok _) fun _ => .bind ?_ fun _ _ => .ok _
          exact Sched.transfer_faults (fun _ => hd) (fun _ _ _ => hd) fun _ _ =>
            hP _ nofun nofun nofun
      | back => exact .ok _
  | resumeChilds self cur loop child =>
      cases child with
      | none =>
          cases loop with
          | zero => exact .ok _
          | succ loop => exact passTurn_faults hd fun _ => hP _ nofun nofun nofun
      | some child =>
          refine .bind hlive fun _ _ => .ite (fun _ => .ok _) fun _ => ?_
          exact .bind (checkOwner_faults fun _ _ _ => hd) fun _ _ => .ok _
  | resumeAll =>
      exact .ite (fun _ => .ok _) fun _ => callResumeChilds_faults fun _ _ _ => hd
  | yield q pc =>
      cases pc with
      | childs => exact hyield q _ rfl
      | back => exact .ok _
  | execute c pc =>
      cases pc with
      | entry => exact .ok _
      | body => exact .ok _
      | childs =>
          refine .bind hlive fun _ _ => .ite (fun _ => ?_) fun _ =>
            callResumeChildsOf_faults fun _ => hd
          exact .bind (hfinish c _ rfl) fun _ _ => .ok _
      | back => exact Faults.error.mpr (hP _ nofun nofun nofun)
  | mget q =>
      refine .bind hlive fun _ _ => ?_
      split
      · exact .bind (setFlag_wait_faults fun _ => hd) fun _ _ =>
          callResumeChildsOf_faults fun _ => hd
      · exact .ok _
  | wait c spec b =>
      refine .ite (fun _ => .ok _) fun hpersist => ?_
      obtain ⟨hb, hf⟩ := hwait c spec b rfl (Bool.eq_false_iff.mpr hpersist)
      exact .bind (release_faults hb hf) fun _ _ => .ok _

end State

end BoostCoro.Coroutine
