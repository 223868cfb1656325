import BoostCoro.Coroutine.Calls
import BoostCoro.Coroutine.Sched
/-!
# What a step can do

All that one step of the machine can do in a state that satisfies the scheduling
invariant, with the guards it passed and the state it leaves. Every invariant of
the scheduler is proved from this list.
-/

namespace BoostCoro.Coroutine

namespace State

/-- Some CHLD flag of `c` is set. -/
def notified (s : State) (c : CoroId) : Bool :=
  s.chk .evet c coroEvetChld || s.chk .msg c coroMesgChld

/-- What a member `resume_childs` does to the flags of the owner of the list. -/
def dropChld (s : State) (cur : Ctx) : State :=
  match s.running, cur with
  | some _, some d =>
    let s := s.setFlags .evet d (s.flags .evet d &&& ~~~coroEvetChld)
    s.setFlags .msg d (s.flags .msg d &&& ~~~coroMesgChld)
  | _, _ => s

/-- `event_set(CORO_EVET_WAIT)`, `msg_set(CORO_MESG_WAIT)`. -/
def startWait (s : State) (w : FlagWord) (c : CoroId) : State :=
  s.setFlags w c (s.flags w c &&& ~~~coroEvetWait ||| coroEvetWait)

end State

/-- `cur->_coro_childs` can be reached. -/
def Sched.OwnerLive (s : Sched) (cur : Ctx) : Prop := ∀ d, cur = some d → d ∈ s.pool

/-- `resume_childs(coro)`, called in the running context. -/
inductive EnterPass (s : State) (coro : Option CoroId) : State → List Obs → Prop
  | skip {q : CoroId} (hrun : s.running = some q) (hcoro : coro = some q)
      (hno : s.notified q = false) : EnterPass s coro s []
  | enter {cur : Ctx} (hcur : coro.or s.running = cur) (hlive : s.OwnerLive cur) :
      EnterPass s coro
        ((s.dropChld cur).push
          (.resumeChilds s.running cur (s.coroChilds cur).length none))
        [.passBegin cur]

/-- The calls that start a wait, for a coroutine and on a block, and the reactor
they leave. -/
inductive StartsWait (s : State) : User → CoroId → WaitSpec → Block → Coreactor → Prop
  | io {fd : Int} {mask : EventMask} {timeout : Int} {coro : Option CoroId} {c : CoroId}
      {b : Block} {r : Coreactor} (hc : coro.or s.running = some c)
      (hset : s.reactor.setIo c fd mask timeout = .ok (b, r)) :
      StartsWait s (.setIo fd mask timeout coro) c (.io fd mask timeout) b r
  | timeout {timeout : Int} {coro : Option CoroId} {c : CoroId} {b : Block} {r : Coreactor}
      (hc : coro.or s.running = some c) (hpos : 0 < timeout)
      (hset : s.reactor.setEvent c (.timeoutSet c) true = (b, r)) :
      StartsWait s (.setTimeout timeout coro) c (.timeout timeout) b r
  | signal {signal : Int} {coro : Option CoroId} {c : CoroId} {b : Block} {r : Coreactor}
      (hc : coro.or s.running = some c)
      (hset : s.reactor.setEvent c (.signalSet signal c) false = (b, r)) :
      StartsWait s (.setSignal signal coro) c (.signal signal) b r

/-- The calls that neither make another call nor switch context, beside `child`. -/
inductive Quiet (s : State) : User → State → List Obs → Prop
  | idle {u : User} : Quiet s u s []
  | mput {c : CoroId} {m : MessagePtr} {s' : State} {evs : List Obs}
      (hput : s.mput c m = .ok (s', evs)) : Quiet s (.mput c m) s' evs
  | mbroadcast {p : CoroId} {m : MessagePtr} {s' : State} {evs : List Obs}
      (hcast : s.mbroadcast p m = .ok (s', evs)) : Quiet s (.mbroadcast p m) s' evs
  | mget {q : CoroId} {m : MessagePtr} {ms : List MessagePtr} (hrun : s.running = some q)
      (hmessages : s.coroMessages q = m :: ms) :
      Quiet s (.mget false)
        { s with coroMessages := Function.update s.coroMessages q ms } [.received q m]
  | cancel {coro : Option CoroId} {s' : State} {evs : List Obs}
      (hcancel : s.cancel coro = .ok (s', evs)) : Quiet s (.cancel coro) s' evs
  | fire {b : Block} {watcher : Watcher} {revents : EventMask} {s' : State} {evs : List Obs}
      (hfire : s.fire b watcher revents = some (.ok (s', evs))) :
      Quiet s (.fire b watcher revents) s' evs
  | flag {op : Setter} {w : FlagWord} {c : CoroId} {m : StatT} {s' : State}
      (hset : s.setter op w c m = .ok s') : Quiet s (.flag op w c m) s' []

theorem Quiet.sched {s s' : State} {u : User} {evs : List Obs} (h : Quiet s u s' evs) :
    s'.toSched = s.toSched := by
  cases h with
  | idle => rfl
  | mput hput => exact (State.mput_ok hput).2.1.sched
  | mbroadcast hcast => exact (State.mbroadcast_ok hcast).1.sched
  | mget => rfl
  | cancel hcancel =>
      rcases State.cancel_ok hcancel with ⟨rfl, _⟩ | ⟨_, _, _, _, _, _, hwakes, _⟩
      · rfl
      · exact hwakes.sched
  | fire hfire =>
      obtain ⟨_, _, _, _, hwakes, _⟩ := State.fire_ok hfire
      exact hwakes.sched
  | flag hset => rw [State.setter_frame hset]

theorem Quiet.events {s s' : State} {u : User} {evs : List Obs} (h : Quiet s u s' evs) :
    ∀ o ∈ evs, o.quiet = true := by
  cases h with
  | idle => exact fun _ h => absurd h List.not_mem_nil
  | mput hput =>
      obtain ⟨_, _, _, _, rfl⟩ := State.mput_ok hput
      simp only [List.forall_mem_append, List.forall_mem_singleton]
      exact ⟨State.quiet_wokenBy, rfl⟩
  | mbroadcast hcast => exact (State.mbroadcast_ok hcast).2.quiet
  | mget => simp [Obs.quiet]
  | cancel hcancel =>
      rcases State.cancel_ok hcancel with ⟨_, rfl⟩ | ⟨_, _, _, _, _, _, _, _, _, rfl⟩
      · exact fun _ h => absurd h List.not_mem_nil
      · simp only [List.forall_mem_append, List.forall_mem_singleton]
        exact ⟨State.quiet_wokenBy, rfl⟩
  | fire hfire =>
      obtain ⟨_, _, _, _, _, _, _, rfl⟩ := State.fire_ok hfire
      simp only [List.forall_mem_cons]
      exact ⟨rfl, State.quiet_wokenBy⟩
  | flag => exact fun _ h => absurd h List.not_mem_nil

/-- The resumer of `c` may get control back. -/
def ResumerReady (s : Sched) (c : CoroId) : Prop :=
  ∀ p, s.coroPre c = some p → p ∈ s.pool ∧ s.stat p = coroStatWait

/-- The steps from a state. -/
inductive Effect (s : State) : Act → State → List Obs → Prop
  | resumeIdle {c : CoroId} {rest : List Frame}
      (htop : s.stack s.running = .resume s.running c .entry :: rest) (hlive : c ∈ s.pool)
      (hstat : s.stat c = coroStatDone ∨ s.stat c = coroStatBusy) :
      Effect s .lib (s.setStack rest) []
  | resumeStraight {c : CoroId} {rest : List Frame}
      (htop : s.stack s.running = .resume s.running c .entry :: rest) (hlive : c ∈ s.pool)
      (hstat : s.stat c = coroStatInit ∨ s.stat c = coroStatWait)
      (hno : s.notified c = false) :
      Effect s .lib (s.setStack (.resume s.running c .transfer :: rest)) []
  | resumePass {c : CoroId} {rest : List Frame} {s' : State} {evs : List Obs}
      (htop : s.stack s.running = .resume s.running c .entry :: rest) (hlive : c ∈ s.pool)
      (hstat : s.stat c = coroStatInit ∨ s.stat c = coroStatWait)
      (hyes : s.notified c = true)
      (hpass : EnterPass (s.setStack (.resume s.running c .transfer :: rest)) (some c) s' evs) :
      Effect s .lib s' evs
  | resumeWaiting {c : CoroId} {rest : List Frame}
      (htop : s.stack s.running = .resume s.running c .transfer :: rest) (hlive : c ∈ s.pool)
      (hwait : s.waiting c = true) : Effect s .lib (s.setStack rest) []
  | transfer {c : CoroId} {rest : List Frame}
      (htop : s.stack s.running = .resume s.running c .transfer :: rest) (hlive : c ∈ s.pool)
      (hstat : s.stat c = coroStatInit ∨ s.stat c = coroStatWait)
      (hwait : s.waiting c = false) :
      Effect s .lib
        { s with toSched :=
            (s.toSched.setStack (.resume s.running c .back :: rest)).switchTo c }
        [.transferred c]
  | resumeBack {c : CoroId} {rest : List Frame}
      (htop : s.stack s.running = .resume s.running c .back :: rest) :
      Effect s .lib (s.setStack rest) []
  | passEnd {cur : Ctx} {rest : List Frame}
      (htop : s.stack s.running = .resumeChilds s.running cur 0 none :: rest) :
      Effect s .lib (s.setStack rest) [.passEnd cur]
  | passDestroy {cur : Ctx} {loop : Nat} {child : CoroId} {childs : List CoroId}
      {rest : List Frame}
      (htop : s.stack s.running = .resumeChilds s.running cur (loop + 1) none :: rest)
      (howner : s.OwnerLive cur) (hchilds : s.coroChilds cur = child :: childs)
      (hlive : child ∈ s.pool) (hdone : s.stat child = coroStatDone) :
      Effect s .lib
        (((s.setChilds cur childs).destroy child).setStack
          (.resumeChilds s.running cur loop none :: rest))
        [.destroyed child]
  | passHold {cur : Ctx} {loop : Nat} {child : CoroId} {childs : List CoroId}
      {rest : List Frame}
      (htop : s.stack s.running = .resumeChilds s.running cur (loop + 1) none :: rest)
      (howner : s.OwnerLive cur) (hchilds : s.coroChilds cur = child :: childs)
      (hlive : child ∈ s.pool) (hdone : s.stat child ≠ coroStatDone) :
      Effect s .lib
        ((s.setChilds cur childs).setStack
          (.resume s.running child .entry ::
            .resumeChilds s.running cur loop (some child) :: rest))
        []
  | passDrop {cur : Ctx} {loop : Nat} {child : CoroId} {rest : List Frame}
      (htop : s.stack s.running = .resumeChilds s.running cur loop (some child) :: rest)
      (hlive : child ∈ s.pool) (hdone : s.stat child = coroStatDone) :
      Effect s .lib
        ((s.destroy child).setStack (.resumeChilds s.running cur loop none :: rest))
        [.destroyed child]
  | passKeep {cur : Ctx} {loop : Nat} {child : CoroId} {rest : List Frame}
      (htop : s.stack s.running = .resumeChilds s.running cur loop (some child) :: rest)
      (howner : s.OwnerLive cur) (hlive : child ∈ s.pool)
      (hdone : s.stat child ≠ coroStatDone) :
      Effect s .lib
        ((s.setChilds cur (s.coroChilds cur ++ [child])).setStack
          (.resumeChilds s.running cur loop none :: rest))
        []
  | allEnd {rest : List Frame} (hrun : s.running = none)
      (htop : s.stack s.running = .resumeAll :: rest) (hchilds : s.coroChilds none = []) :
      Effect s .lib (s.setStack rest) []
  | allPass {rest : List Frame} {s' : State} {evs : List Obs} (hrun : s.running = none)
      (htop : s.stack s.running = .resumeAll :: rest) (hchilds : s.coroChilds none ≠ [])
      (hpass : EnterPass s none s' evs) : Effect s .lib s' evs
  | yieldOut {q : CoroId} {rest : List Frame} (hrun : s.running = some q)
      (htop : s.stack s.running = .yield q .childs :: rest) (hpre : ResumerReady s.toSched q) :
      Effect s .lib
        { s with toSched := (s.toSched.setStack (.yield q .back :: rest)).switchBack q }
        [.handedBack (s.coroPre q)]
  | yieldBack {q : CoroId} {rest : List Frame} (hrun : s.running = some q)
      (htop : s.stack s.running = .yield q .back :: rest) :
      Effect s .lib (s.setStack rest) []
  | executeEntry {c : CoroId} (hrun : s.running = some c)
      (htop : s.stack s.running = [.execute c .entry]) :
      Effect s .lib (s.setStack [.execute c .body]) []
  | executePass {c : CoroId} {s' : State} {evs : List Obs} (hrun : s.running = some c)
      (htop : s.stack s.running = [.execute c .childs]) (hchilds : s.coroChilds (some c) ≠ [])
      (hpass : EnterPass s none s' evs) : Effect s .lib s' evs
  | finish {c : CoroId} (hrun : s.running = some c)
      (htop : s.stack s.running = [.execute c .childs]) (hchilds : s.coroChilds (some c) = [])
      (hpre : ResumerReady (s.toSched.setStat c coroStatDone) c) :
      Effect s .lib
        { s with toSched :=
            ((s.toSched.setStat c coroStatDone).setStack [.execute c .back]).switchBack c }
        [.finished c, .handedBack (s.coroPre c)]
  | mgetSleep {q : CoroId} {rest : List Frame} {s' : State} {evs : List Obs}
      (hrun : s.running = some q) (htop : s.stack s.running = .mget q :: rest)
      (hempty : s.coroMessages q = [])
      (hpass : EnterPass ((s.startWait .msg q).push (.yield q .childs)) none s' evs) :
      Effect s .lib s' evs
  | mgetTake {q : CoroId} {rest : List Frame} {m : MessagePtr} {ms : List MessagePtr}
      (hrun : s.running = some q) (htop : s.stack s.running = .mget q :: rest)
      (hmessages : s.coroMessages q = m :: ms) :
      Effect s .lib
        { s.setStack rest with coroMessages := Function.update s.coroMessages q ms }
        [.received q m]
  | waitPersist {c : CoroId} {spec : WaitSpec} {b : Block} {rest : List Frame}
      (htop : s.stack s.running = .wait c spec b :: rest) (hpersist : spec.persists = true) :
      Effect s .lib (s.setStack rest) [.waitEnded c spec b]
  | waitRelease {c : CoroId} {spec : WaitSpec} {b : Block} {rest : List Frame} {r : Coreactor}
      (htop : s.stack s.running = .wait c spec b :: rest) (hpersist : spec.persists = false)
      (hrelease : s.reactor.release c b = .ok r) :
      Effect s .lib { s.setStack rest with reactor := r } [.waitEnded c spec b]
  | create {c : CoroId} {raw : StatT} (huser : s.inUserCode = true) (hc : c ∉ s.pool) :
      Effect s (.user (.create c raw))
        ((({ s with
          toSched := s.toSched.construct c
          coroMessages := Function.update s.coroMessages c [] } : State).setFlags
            .evet c 0).setFlags .msg c raw)
        [.constructed c]
  | child {c : CoroId} (huser : s.inUserCode = true) (hlive : s.running ≠ none → c ∈ s.pool) :
      Effect s (.user (.child c))
        (({ s with
          coroParent :=
            match s.running with
            | none => s.coroParent
            | some p => Function.update s.coroParent c (some p)
          attached := Function.update s.attached c true } : State).setChilds s.running
            (s.coroChilds s.running ++ [c]))
        [.attached c s.running]
  | callResume {c : CoroId} (huser : s.inUserCode = true) :
      Effect s (.user (.resume (some c))) (s.push (.resume s.running c .entry)) []
  | callResumeAll (huser : s.inUserCode = true) (hrun : s.running = none) :
      Effect s (.user (.resume none)) (s.push .resumeAll) []
  | callPass {coro : Option CoroId} {s' : State} {evs : List Obs} (huser : s.inUserCode = true)
      (hpass : EnterPass s coro s' evs) : Effect s (.user (.resumeChilds coro)) s' evs
  | callYield {q : CoroId} {s' : State} {evs : List Obs} (huser : s.inUserCode = true)
      (hrun : s.running = some q)
      (hpass : EnterPass (s.push (.yield q .childs)) none s' evs) :
      Effect s (.user .yield) s' evs
  | bodyReturn {c : CoroId} (hrun : s.running = some c)
      (htop : s.stack s.running = [.execute c .body]) :
      Effect s (.user .return) (s.setStack [.execute c .childs]) []
  | callMget {q : CoroId} (huser : s.inUserCode = true) (hrun : s.running = some q) :
      Effect s (.user (.mget true)) (s.push (.mget q)) []
  | waitMain {u : User} {c : CoroId} {spec : WaitSpec} {b : Block} {r : Coreactor}
      (huser : s.inUserCode = true) (hrun : s.running = none)
      (hstarts : StartsWait s u c spec b r) (hlive : c ∈ s.pool) :
      Effect s (.user u) { (s.startWait .evet c).push (.wait c spec b) with reactor := r }
        [.waitBegan c spec b]
  | waitCoro {u : User} {c q : CoroId} {spec : WaitSpec} {b : Block} {r : Coreactor}
      {s' : State} {evs : List Obs} (huser : s.inUserCode = true) (hrun : s.running = some q)
      (hstarts : StartsWait s u c spec b r) (hlive : c ∈ s.pool)
      (hpass : EnterPass
        (State.push { (s.startWait .evet c).push (.wait c spec b) with reactor := r }
          (.yield q .childs)) none s' evs) :
      Effect s (.user u) s' (.waitBegan c spec b :: evs)
  | quiet {u : User} {s' : State} {evs : List Obs} (huser : s.inUserCode = true)
      (hquiet : Quiet s u s' evs) : Effect s (.user u) s' evs

/-! ## Every step is one of these -/

variable {s s' : State} {evs : List Obs} {rest : List Frame} {c q : CoroId}

theorem checkOwner_eq_ok {cur : Ctx} {u : Unit} :
    s.checkOwner cur = .ok u ↔ s.OwnerLive cur := by
  unfold State.checkOwner Sched.OwnerLive
  cases cur with
  | none => simp
  | some d => simp [Sched.checkLive_eq_ok]

theorem enterPass_of_member {coro : Option CoroId} (hrun : s.running = some q)
    (h : s.callResumeChildsOf q coro = .ok (s', evs)) : EnterPass s coro s' evs := by
  unfold State.callResumeChildsOf at h
  dsimp only at h
  split at h
  next hskip =>
    obtain ⟨rfl, rfl⟩ := Prod.mk.inj (Except.ok.inj h)
    obtain ⟨hcoro, hevet, hmsg⟩ := hskip
    rw [hcoro, Option.getD_some] at hevet hmsg
    refine .skip hrun hcoro ?_
    rw [State.notified, hevet]
    exact hmsg
  next =>
    obtain ⟨s₁, hevet, h⟩ := Fallible.bind_eq_ok.mp h
    obtain ⟨s₂, hmsg, h⟩ := Fallible.bind_eq_ok.mp h
    obtain ⟨hlive, rfl⟩ := State.delFlag_chld hevet
    obtain ⟨_, rfl⟩ := State.delFlag_chld hmsg
    have hcur : coro.or s.running = some (coro.getD q) := by
      rw [hrun]
      cases coro <;> rfl
    have henter := EnterPass.enter hcur fun d hd => Option.some.inj hd ▸ hlive
    obtain ⟨rfl, rfl⟩ := Prod.mk.inj (Except.ok.inj h)
    simp only [State.dropChld, hrun] at henter
    exact henter

theorem enterPass_of {coro : Option CoroId}
    (h : s.callResumeChilds s.running coro = .ok (s', evs)) : EnterPass s coro s' evs := by
  cases hrun : s.running with
  | none =>
      rw [hrun] at h
      obtain ⟨_, howner, h⟩ := Fallible.bind_eq_ok.mp h
      obtain ⟨rfl, rfl⟩ := Prod.mk.inj (Except.ok.inj h)
      have hcur : coro.or s.running = coro := by rw [hrun, Option.or_none]
      have henter := EnterPass.enter hcur (checkOwner_eq_ok.mp howner)
      simpa only [State.dropChld, hrun] using henter
  | some q =>
      rw [hrun] at h
      exact enterPass_of_member hrun h

theorem SchedInv.dispatch (hinv : SchedInv s.toSched) : s.dispatch s.running = s.running := by
  unfold State.dispatch
  cases hrun : s.running with
  | none => rw [hinv.current, hrun]
  | some q => rfl

theorem SchedInv.running_busy (hinv : SchedInv s.toSched) {p : CoroId}
    (hrun : s.running = some p) : s.stat p = coroStatBusy :=
  (hinv.busy p (hinv.live p hrun)).mpr hrun

theorem SchedInv.stack_ne_nil (hinv : SchedInv s.toSched) {p : CoroId} (hlive : p ∈ s.pool)
    (hstat : s.stat p ≠ coroStatInit) : s.stack (some p) ≠ [] :=
  fun h => hstat ((hinv.fresh p hlive).mpr h)

/-- The state of a coroutine that `resume` finds neither INIT, WAIT nor DONE. -/
theorem SchedInv.busy_of_not_ready (hinv : SchedInv s.toSched) (hlive : c ∈ s.pool)
    (hdone : s.stat c ≠ coroStatDone)
    (hbit : ¬ hasBit (s.stat c) (coroStatInit ||| coroStatWait) = true) :
    s.stat c = coroStatBusy := by
  rcases hinv.stat c hlive with h | h | h | h
  · rw [h] at hbit
    exact absurd (by decide) hbit
  · rw [h] at hbit
    exact absurd (by decide) hbit
  · exact h
  · exact absurd h hdone

theorem SchedInv.ready_of_hasBit (hinv : SchedInv s.toSched) (hlive : c ∈ s.pool)
    (hbit : hasBit (s.stat c) (coroStatInit ||| coroStatWait) = true) :
    s.stat c = coroStatInit ∨ s.stat c = coroStatWait := by
  rcases hinv.stat c hlive with h | h | h | h
  · exact .inl h
  · exact .inr h
  · rw [h] at hbit
    exact absurd hbit (by decide)
  · rw [h] at hbit
    exact absurd hbit (by decide)

theorem SchedInv.resumeEntry (hinv : SchedInv s.toSched)
    (htop : s.stack s.running = .resume s.running c .entry :: rest)
    (h : s.resumeEntry s.running c rest = .ok (s', evs)) : Effect s .lib s' evs := by
  obtain ⟨_, hlive, h⟩ := Fallible.bind_eq_ok.mp h
  have hlive := Sched.checkLive_eq_ok.mp hlive
  split at h
  next hdone =>
    obtain ⟨rfl, rfl⟩ := Prod.mk.inj (Except.ok.inj h)
    exact .resumeIdle htop hlive (.inl hdone)
  next hdone =>
    split at h
    next hbit =>
      have hready := hinv.ready_of_hasBit hlive hbit
      dsimp only at h
      split at h
      next hyes =>
        have hdispatch : State.dispatch (s.setStack (.resume s.running c .transfer :: rest))
            s.running = s.running := hinv.dispatch
        rw [hdispatch] at h
        exact .resumePass htop hlive hready hyes (enterPass_of h)
      next hno =>
        obtain ⟨rfl, rfl⟩ := Prod.mk.inj (Except.ok.inj h)
        exact .resumeStraight htop hlive hready (Bool.eq_false_iff.mpr hno)
    next hbit =>
      obtain ⟨rfl, rfl⟩ := Prod.mk.inj (Except.ok.inj h)
      exact .resumeIdle htop hlive (.inr (hinv.busy_of_not_ready hlive hdone hbit))

theorem SchedInv.resumeTransfer (hinv : SchedInv s.toSched)
    (htop : s.stack s.running = .resume s.running c .transfer :: rest)
    (h : s.resumeTransfer s.running c rest = .ok (s', evs)) : Effect s .lib s' evs := by
  obtain ⟨_, hlive, h⟩ := Fallible.bind_eq_ok.mp h
  have hlive := Sched.checkLive_eq_ok.mp hlive
  split at h
  next hwait =>
    obtain ⟨rfl, rfl⟩ := Prod.mk.inj (Except.ok.inj h)
    exact .resumeWaiting htop hlive hwait
  next hwait =>
    obtain ⟨sched, hswitch, h⟩ := Fallible.bind_eq_ok.mp h
    obtain ⟨rfl, rfl⟩ := Prod.mk.inj (Except.ok.inj h)
    obtain ⟨_, hstat, rfl⟩ := Sched.transfer_running
      (s := s.toSched.setStack (.resume s.running c .back :: rest))
      (fun p hrun => hinv.running_busy hrun)
      (fun p hrun => by
        have hp : s.running = some p := hrun
        simp [Sched.setStack, hp]) hswitch
    exact .transfer htop hlive hstat (by simpa using hwait)

/-- The start of a turn. -/
theorem passTurn_ok {x cur : Ctx} {loop : Nat}
    (h : s.passTurn x cur (loop + 1) rest = .ok (s', evs)) :
    ∃ c childs, s.OwnerLive cur ∧ s.coroChilds cur = c :: childs ∧ c ∈ s.pool ∧
      (s.stat c = coroStatDone ∧ evs = [.destroyed c] ∧
        s' = ((s.setChilds cur childs).destroy c).setStack
          (.resumeChilds x cur loop none :: rest) ∨
      s.stat c ≠ coroStatDone ∧ evs = [] ∧
        s' = (s.setChilds cur childs).setStack (.resume (s.dispatch x) c .entry ::
          .resumeChilds x cur loop (some c) :: rest)) := by
  obtain ⟨_, howner, h⟩ := Fallible.bind_eq_ok.mp h
  split at h
  · cases h
  next c childs hchilds =>
    obtain ⟨_, hlive, h⟩ := Fallible.bind_eq_ok.mp h
    refine ⟨c, childs, checkOwner_eq_ok.mp howner, hchilds, Sched.checkLive_eq_ok.mp hlive, ?_⟩
    split at h
    next hdone =>
      obtain ⟨rfl, rfl⟩ := Prod.mk.inj (Except.ok.inj h)
      exact .inl ⟨hdone, rfl, rfl⟩
    next hdone =>
      obtain ⟨rfl, rfl⟩ := Prod.mk.inj (Except.ok.inj h)
      exact .inr ⟨hdone, rfl, rfl⟩

/-- The end of a turn. -/
theorem passBack_ok {x cur : Ctx} {loop : Nat}
    (h : s.passBack x cur loop c rest = .ok (s', evs)) :
    c ∈ s.pool ∧
      (s.stat c = coroStatDone ∧ evs = [.destroyed c] ∧
        s' = (s.destroy c).setStack (.resumeChilds x cur loop none :: rest) ∨
      s.stat c ≠ coroStatDone ∧ s.OwnerLive cur ∧ evs = [] ∧
        s' = (s.setChilds cur (s.coroChilds cur ++ [c])).setStack
          (.resumeChilds x cur loop none :: rest)) := by
  obtain ⟨_, hlive, h⟩ := Fallible.bind_eq_ok.mp h
  refine ⟨Sched.checkLive_eq_ok.mp hlive, ?_⟩
  dsimp only at h
  split at h
  next hdone =>
    obtain ⟨rfl, rfl⟩ := Prod.mk.inj (Except.ok.inj h)
    exact .inl ⟨hdone, rfl, rfl⟩
  next hdone =>
    obtain ⟨_, howner, h⟩ := Fallible.bind_eq_ok.mp h
    obtain ⟨rfl, rfl⟩ := Prod.mk.inj (Except.ok.inj h)
    exact .inr ⟨hdone, checkOwner_eq_ok.mp howner, rfl, rfl⟩

theorem SchedInv.passTurn (hinv : SchedInv s.toSched) {cur : Ctx} {loop : Nat}
    (htop : s.stack s.running = .resumeChilds s.running cur loop none :: rest)
    (h : s.passTurn s.running cur loop rest = .ok (s', evs)) : Effect s .lib s' evs := by
  cases loop with
  | zero =>
      obtain ⟨rfl, rfl⟩ := Prod.mk.inj (Except.ok.inj h)
      exact .passEnd htop
  | succ loop =>
      obtain ⟨c, childs, howner, hchilds, hlive, ⟨hdone, rfl, rfl⟩ | ⟨hdone, rfl, rfl⟩⟩ :=
        passTurn_ok h
      · exact .passDestroy htop howner hchilds hlive hdone
      · rw [hinv.dispatch]
        exact .passHold htop howner hchilds hlive hdone

theorem passBack_effect {cur : Ctx} {loop : Nat} {child : CoroId}
    (htop : s.stack s.running = .resumeChilds s.running cur loop (some child) :: rest)
    (h : s.passBack s.running cur loop child rest = .ok (s', evs)) :
    Effect s .lib s' evs := by
  obtain ⟨hlive, ⟨hdone, rfl, rfl⟩ | ⟨hdone, howner, rfl, rfl⟩⟩ := passBack_ok h
  · exact .passDrop htop hlive hdone
  · exact .passKeep htop howner hlive hdone

/-- `transfer_pre` of the running coroutine, in state BUSY or DONE. -/
theorem SchedInv.handBack (hinv : SchedInv s.toSched) {t : Sched} {fs : List Frame}
    (hrun : s.running = some c) (ht : t = s.toSched ∨ t = s.toSched.setStat c coroStatDone)
    (hfs : fs ≠ []) (h : State.handBack { s with toSched := t } c fs = .ok (s', evs)) :
    ResumerReady t c ∧
      s' = { s with toSched := (t.setStack fs).switchBack c } ∧
      evs = [.handedBack (s.coroPre c)] := by
  have hlive := hinv.live c hrun
  have hpool : t.pool = s.pool := by rcases ht with rfl | rfl <;> rfl
  have hrun' : t.running = some c := by rcases ht with rfl | rfl <;> exact hrun
  have hstack : t.stack = s.stack := by rcases ht with rfl | rfl <;> rfl
  have hpre : t.coroPre = s.coroPre := by rcases ht with rfl | rfl <;> rfl
  -- only the state of `c` itself can differ
  have hstat : ∀ x, x ≠ c → t.stat x = s.stat x := by
    intro x hx
    rcases ht with rfl | rfl
    · rfl
    · exact Function.update_of_ne hx ..
  obtain ⟨sched, hswitch, h⟩ := Fallible.bind_eq_ok.mp h
  obtain ⟨rfl, rfl⟩ := Prod.mk.inj (Except.ok.inj h)
  have hcontext : ∀ x ∈ (t.setStack fs).pool, (t.setStack fs).stat x = coroStatWait →
      (t.setStack fs).stack (some x) ≠ [] := by
    intro x hx hwait
    by_cases hxc : x = c
    · simp [Sched.setStack, hrun', hxc, hfs]
    · have hne : some x ≠ t.running := by
        rw [hrun']
        exact fun h => hxc (Option.some.inj h)
      have hstk : (t.setStack fs).stack (some x) = s.stack (some x) := by
        simp only [Sched.setStack, Function.update_of_ne hne, hstack]
      rw [hstk]
      refine hinv.stack_ne_nil (hpool ▸ hx) fun hinit => ?_
      have hw : s.stat x = coroStatWait := (hstat x hxc).symm.trans hwait
      rw [hinit] at hw
      exact absurd hw (by decide)
  obtain ⟨hready, rfl⟩ := Sched.transferPre_running (s := t.setStack fs) hrun' hcontext
    (by simp [Sched.setStack, hrun', hfs]) hswitch
  refine ⟨fun p hp => ?_, rfl, by rw [show s.coroPre = t.coroPre from hpre.symm]⟩
  obtain ⟨hplive, hpstat⟩ := hready p hp
  have hpc : p ≠ c := fun h => hinv.preNe c (hpre ▸ h ▸ hp)
  refine ⟨hplive, ?_⟩
  unfold Sched.busyToWait at hpstat
  split at hpstat
  · exact (Function.update_of_ne hpc ..).symm.trans hpstat
  · exact hpstat

theorem SchedInv.executeChilds (hinv : SchedInv s.toSched) (hrun : s.running = some c)
    (htop : s.stack s.running = [.execute c .childs])
    (h : s.executeChilds c [] = .ok (s', evs)) : Effect s .lib s' evs := by
  obtain ⟨_, _, h⟩ := Fallible.bind_eq_ok.mp h
  split at h
  next hchilds =>
    obtain ⟨⟨s₁, evs₁⟩, hback, h⟩ := Fallible.bind_eq_ok.mp h
    obtain ⟨rfl, rfl⟩ := Prod.mk.inj (Except.ok.inj h)
    obtain ⟨hready, rfl, rfl⟩ := hinv.handBack hrun (.inr rfl) (List.cons_ne_nil _ _) hback
    exact .finish hrun htop hchilds hready
  next hchilds => exact .executePass hrun htop hchilds (enterPass_of_member hrun h)

theorem resumeAllTurn_effect (hrun : s.running = none) (hcur : s.currentCoroutine = none)
    (htop : s.stack s.running = .resumeAll :: rest)
    (h : s.resumeAllTurn rest = .ok (s', evs)) : Effect s .lib s' evs := by
  unfold State.resumeAllTurn at h
  split at h
  next hchilds =>
    obtain ⟨rfl, rfl⟩ := Prod.mk.inj (Except.ok.inj h)
    exact .allEnd hrun htop hchilds
  next hchilds =>
    rw [hcur] at h
    exact .allPass hrun htop hchilds (enterPass_of (by rwa [hrun]))

theorem mgetTurn_effect (hrun : s.running = some q)
    (htop : s.stack s.running = .mget q :: rest)
    (h : s.mgetTurn q rest = .ok (s', evs)) : Effect s .lib s' evs := by
  obtain ⟨_, _, h⟩ := Fallible.bind_eq_ok.mp h
  split at h
  next hempty =>
    obtain ⟨s₁, hset, h⟩ := Fallible.bind_eq_ok.mp h
    obtain ⟨_, rfl⟩ := State.setFlag_wait hset
    exact .mgetSleep hrun htop hempty (enterPass_of_member hrun h)
  next m ms hmessages =>
    obtain ⟨rfl, rfl⟩ := Prod.mk.inj (Except.ok.inj h)
    exact .mgetTake hrun htop hmessages

theorem waitEnd_effect {spec : WaitSpec} {b : Block}
    (htop : s.stack s.running = .wait c spec b :: rest)
    (h : s.waitEnd c spec b rest = .ok (s', evs)) : Effect s .lib s' evs := by
  unfold State.waitEnd at h
  split at h
  next hpersist =>
    obtain ⟨rfl, rfl⟩ := Prod.mk.inj (Except.ok.inj h)
    exact .waitPersist htop hpersist
  next hpersist =>
    obtain ⟨r, hrelease, h⟩ := Fallible.bind_eq_ok.mp h
    obtain ⟨rfl, rfl⟩ := Prod.mk.inj (Except.ok.inj h)
    exact .waitRelease htop (by simpa using hpersist) hrelease

/-- The steps of the calls in progress. -/
theorem SchedInv.stepFrame (hinv : SchedInv s.toSched) {top : Frame}
    (htop : s.stack s.running = top :: rest) (hbody : ∀ d, top ≠ .execute d .body)
    (h : s.stepFrame rest top = .ok (s', evs)) : Effect s .lib s' evs := by
  have hst : Stacked s.running (top :: rest) := htop ▸ hinv.stacked s.running
  have hown : top.ownedBy s.running := hst.owned
  cases top with
  | resume self coro pc =>
      obtain rfl : self = s.running := hown
      cases pc with
      | entry => exact hinv.resumeEntry htop h
      | transfer => exact hinv.resumeTransfer htop h
      | back =>
          obtain ⟨rfl, rfl⟩ := Prod.mk.inj (Except.ok.inj h)
          exact .resumeBack htop
  | resumeChilds self cur loop child =>
      obtain rfl : self = s.running := hown
      cases child with
      | none => exact hinv.passTurn htop h
      | some child => exact passBack_effect htop h
  | resumeAll =>
      have hrun : s.running = none := hown
      exact resumeAllTurn_effect hrun (hinv.current.trans hrun) htop h
  | yield q pc =>
      have hrun : s.running = some q := hown
      cases pc with
      | childs =>
          obtain ⟨hready, rfl, rfl⟩ := hinv.handBack hrun (.inl rfl) (List.cons_ne_nil _ _) h
          exact .yieldOut hrun htop hready
      | back =>
          obtain ⟨rfl, rfl⟩ := Prod.mk.inj (Except.ok.inj h)
          exact .yieldBack hrun htop
  | execute c pc =>
      have hrun : s.running = some c := hown
      obtain rfl : rest = [] := hst.execute_bottom
      cases pc with
      | entry =>
          obtain ⟨rfl, rfl⟩ := Prod.mk.inj (Except.ok.inj h)
          have hcur : s.currentCoroutine = some c := hinv.current.trans hrun
          rw [← hcur]
          exact .executeEntry hrun htop
      | body => exact absurd rfl (hbody c)
      | childs => exact hinv.executeChilds hrun htop h
      | back => cases h
  | mget q => exact mgetTurn_effect hown htop h
  | wait c spec b => exact waitEnd_effect htop h

/-! ## Calls of the user -/

variable {u : User}

theorem target_ok {coro : Option CoroId} (h : s.target coro = .ok c) :
    coro.or s.currentCoroutine = some c := by
  unfold State.target at h
  split at h
  · cases h
  next d hd => rw [hd, Except.ok.inj h]

/-- The common part of the waits: the flag, the event, the `yield`. -/
theorem SchedInv.callWait (hinv : SchedInv s.toSched) (huser : s.inUserCode = true)
    {spec : WaitSpec} {b : Block} {r : Coreactor} (hstarts : StartsWait s u c spec b r)
    (hlive : c ∈ s.pool) (h : (s.startWait .evet c).callWait c spec b r = .ok (s', evs)) :
    Effect s (.user u) s' evs := by
  obtain ⟨⟨s₁, evs₁⟩, hyield, h⟩ := Fallible.bind_eq_ok.mp h
  obtain ⟨rfl, rfl⟩ := Prod.mk.inj (Except.ok.inj h)
  have hcur : s.currentCoroutine = s.running := hinv.current
  unfold State.callYield at hyield
  split at hyield
  next hnone =>
    obtain ⟨rfl, rfl⟩ := Prod.mk.inj (Except.ok.inj hyield)
    exact .waitMain huser (hcur.symm.trans hnone) hstarts hlive
  next q hq =>
    have hrun : s.running = some q := hcur.symm.trans hq
    exact .waitCoro huser hrun hstarts hlive (enterPass_of_member hrun hyield)

theorem SchedInv.setIo (hinv : SchedInv s.toSched) (huser : s.inUserCode = true) {fd : Int}
    {mask : EventMask} {timeout : Int} {coro : Option CoroId}
    (h : s.setIo fd mask timeout coro = .ok (s', evs)) :
    Effect s (.user (.setIo fd mask timeout coro)) s' evs := by
  obtain ⟨c, hc, h⟩ := Fallible.bind_eq_ok.mp h
  obtain ⟨s₁, hset, h⟩ := Fallible.bind_eq_ok.mp h
  obtain ⟨⟨b, r⟩, hio, h⟩ := Fallible.bind_eq_ok.mp h
  obtain ⟨hlive, rfl⟩ := State.setFlag_wait hset
  exact hinv.callWait huser (.io (hinv.current ▸ target_ok hc) hio) hlive h

theorem SchedInv.setTimeout (hinv : SchedInv s.toSched) (huser : s.inUserCode = true)
    {timeout : Int} {coro : Option CoroId}
    (h : s.setTimeout timeout coro = .ok (s', evs)) :
    Effect s (.user (.setTimeout timeout coro)) s' evs := by
  unfold State.setTimeout at h
  split at h
  next =>
    obtain ⟨rfl, rfl⟩ := Prod.mk.inj (Except.ok.inj h)
    exact .quiet huser .idle
  next hpos =>
    obtain ⟨c, hc, h⟩ := Fallible.bind_eq_ok.mp h
    obtain ⟨s₁, hset, h⟩ := Fallible.bind_eq_ok.mp h
    obtain ⟨hlive, rfl⟩ := State.setFlag_wait hset
    exact hinv.callWait huser
      (.timeout (hinv.current ▸ target_ok hc) (Int.not_le.mp hpos) rfl) hlive h

theorem SchedInv.setSignal (hinv : SchedInv s.toSched) (huser : s.inUserCode = true)
    {signal : Int} {coro : Option CoroId}
    (h : s.setSignal signal coro = .ok (s', evs)) :
    Effect s (.user (.setSignal signal coro)) s' evs := by
  obtain ⟨c, hc, h⟩ := Fallible.bind_eq_ok.mp h
  obtain ⟨s₁, hset, h⟩ := Fallible.bind_eq_ok.mp h
  obtain ⟨hlive, rfl⟩ := State.setFlag_wait hset
  exact hinv.callWait huser (.signal (hinv.current ▸ target_ok hc) rfl) hlive h

theorem SchedInv.child (hinv : SchedInv s.toSched) (huser : s.inUserCode = true)
    (h : s.child c = .ok (s', evs)) : Effect s (.user (.child c)) s' evs := by
  have heffect := Effect.child (s := s) (c := c) huser
  have hcur : s.currentCoroutine = s.running := hinv.current
  unfold State.child at h
  cases hrun : s.running with
  | none =>
      simp only [hcur, hrun] at h heffect
      obtain ⟨rfl, rfl⟩ := Prod.mk.inj (Except.ok.inj h)
      exact heffect (fun hne => absurd rfl hne)
  | some p =>
      simp only [hcur, hrun] at h heffect
      obtain ⟨_, hlive, h⟩ := Fallible.bind_eq_ok.mp h
      obtain ⟨rfl, rfl⟩ := Prod.mk.inj (Except.ok.inj h)
      exact heffect (fun _ => Sched.checkLive_eq_ok.mp hlive)

theorem SchedInv.callResume (hinv : SchedInv s.toSched) (huser : s.inUserCode = true)
    {coro : Option CoroId} (h : s.callResume coro = .ok (s', evs)) :
    Effect s (.user (.resume coro)) s' evs := by
  unfold State.callResume at h
  cases coro with
  | some c =>
      rw [hinv.current] at h
      obtain ⟨rfl, rfl⟩ := Prod.mk.inj (Except.ok.inj h)
      exact .callResume huser
  | none =>
      dsimp only at h
      split at h
      next =>
        obtain ⟨rfl, rfl⟩ := Prod.mk.inj (Except.ok.inj h)
        exact .quiet huser .idle
      next hnone =>
        obtain ⟨rfl, rfl⟩ := Prod.mk.inj (Except.ok.inj h)
        exact .callResumeAll huser (hinv.current.symm.trans hnone)

theorem SchedInv.bodyReturn (hinv : SchedInv s.toSched)
    (h : s.bodyReturn = some (.ok (s', evs))) : Effect s (.user .return) s' evs := by
  unfold State.bodyReturn at h
  split at h
  next c rest htop =>
    have hst : Stacked s.running (.execute c .body :: rest) := htop ▸ hinv.stacked s.running
    obtain rfl : rest = [] := hst.execute_bottom
    split at h
    · obtain ⟨rfl, rfl⟩ := Prod.mk.inj (Except.ok.inj (Option.some.inj h))
      exact .bodyReturn hst.owned htop
    · cases h
  next => cases h

theorem SchedInv.callMget (hinv : SchedInv s.toSched) (huser : s.inUserCode = true)
    {yieldEnable : Bool} (h : s.callMget yieldEnable = .ok (s', evs)) :
    Effect s (.user (.mget yieldEnable)) s' evs := by
  unfold State.callMget at h
  split at h
  next =>
    obtain ⟨rfl, rfl⟩ := Prod.mk.inj (Except.ok.inj h)
    exact .quiet huser .idle
  next q hq =>
    cases yieldEnable with
    | true =>
        obtain ⟨rfl, rfl⟩ := Prod.mk.inj (Except.ok.inj h)
        exact .callMget huser (hinv.current.symm.trans hq)
    | false =>
        simp only [Bool.false_eq_true, if_false] at h
        split at h
        · obtain ⟨rfl, rfl⟩ := Prod.mk.inj (Except.ok.inj h)
          exact .quiet huser .idle
        next m ms hmessages =>
          obtain ⟨rfl, rfl⟩ := Prod.mk.inj (Except.ok.inj h)
          exact .quiet huser (.mget (hinv.current.symm.trans hq) hmessages)

theorem SchedInv.stepUser (hinv : SchedInv s.toSched) (huser : s.inUserCode = true)
    (h : s.stepUser u = some (.ok (s', evs))) : Effect s (.user u) s' evs := by
  cases u with
  | create c raw =>
      simp only [State.stepUser, State.create] at h
      split at h
      · cases h
      next hc =>
        obtain ⟨rfl, rfl⟩ := Prod.mk.inj (Except.ok.inj (Option.some.inj h))
        exact .create huser hc
  | child c => exact hinv.child huser (Option.some.inj h)
  | resume coro => exact hinv.callResume huser (Option.some.inj h)
  | resumeChilds coro =>
      have h := Option.some.inj h
      rw [hinv.current] at h
      exact .callPass huser (enterPass_of h)
  | yield =>
      have hyield := Option.some.inj h
      unfold State.callYield at hyield
      split at hyield
      next =>
        obtain ⟨rfl, rfl⟩ := Prod.mk.inj (Except.ok.inj hyield)
        exact .quiet huser .idle
      next q hq =>
        have hrun : s.running = some q := hinv.current.symm.trans hq
        exact .callYield huser hrun (enterPass_of_member hrun hyield)
  | «return» => exact hinv.bodyReturn h
  | mput c m => exact .quiet huser (.mput (Option.some.inj h))
  | mbroadcast c m => exact .quiet huser (.mbroadcast (Option.some.inj h))
  | mget yieldEnable => exact hinv.callMget huser (Option.some.inj h)
  | setIo fd mask timeout coro => exact hinv.setIo huser (Option.some.inj h)
  | setTimeout timeout coro => exact hinv.setTimeout huser (Option.some.inj h)
  | setSignal signal coro => exact hinv.setSignal huser (Option.some.inj h)
  | cancel coro => exact .quiet huser (.cancel (Option.some.inj h))
  | fire b w revents => exact .quiet huser (.fire h)
  | flag op w c m =>
      cases hset : s.setter op w c m with
      | error e => simp [State.stepUser, hset, Except.map] at h
      | ok s₁ =>
          simp only [State.stepUser, hset, Except.map, Option.some.injEq, Except.ok.injEq,
            Prod.mk.injEq] at h
          obtain ⟨rfl, rfl⟩ := h
          exact .quiet huser (.flag hset)

/-- All that a step can do. -/
theorem SchedInv.effect (hinv : SchedInv s.toSched) {a : Act}
    (h : s.step a = some (.ok (s', evs))) : Effect s a s' evs := by
  cases a with
  | lib =>
      obtain ⟨hlib, top, rest, htop, hframe⟩ := State.step_lib_inv h
      refine hinv.stepFrame htop (fun d hd => ?_) hframe
      have hst : Stacked s.running (top :: rest) := htop ▸ hinv.stacked s.running
      subst hd
      have hrun : s.running = some d := hst.owned
      rw [State.inUserCode, htop, hrun] at hlib
      cases hlib
  | user u =>
      obtain ⟨huser, hcall⟩ := State.step_user_inv h
      exact hinv.stepUser huser hcall

end BoostCoro.Coroutine
