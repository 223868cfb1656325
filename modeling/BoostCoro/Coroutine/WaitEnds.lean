import BoostCoro.Coroutine.Triggers
/-!
# Why a wait ends

A coroutine in a wait is asleep until its flag is cleared, and only a callback for it
or a `cancel` clears that. So the end of a wait has a reason among the events since it
began; which one depends on the events that may fire for the coroutine meanwhile.
-/

namespace BoostCoro.Coroutine

/-! ## From the flag to the end of the wait -/

/-- The events since the last wait of `c` began. -/
def sinceWait (c : CoroId) (tr : List Obs) : List Obs :=
  Transition.since (fun | .waitBegan d _ _ => d = c | _ => false) tr

/-- No setter clears `CORO_EVET_WAIT` of a coroutine that has it. -/
def KeepsWaits (s : State) : Act → Prop
  | .user (.flag op .evet c m) => s.chk .evet c coroEvetWait = true → op.keepsWait m = true
  | _ => True

instance (s : State) (a : Act) : Decidable (KeepsWaits s a) := by
  induction a using Act.casesOn with
  | lib => exact instDecidableTrue
  | user u =>
      induction u using User.casesOn with
      | flag op w => induction w using FlagWord.casesOn <;> unfold KeepsWaits <;> infer_instance
      | _ => exact instDecidableTrue

/-- The events that clear `CORO_EVET_WAIT` of `c`. -/
def Rouses (c : CoroId) : Obs → Prop
  | .cancelled d => d = c
  | .fired _ _ _ d => d = c
  | _ => False

variable {s s' t : State} {a : Act} {evs tr : List Obs} {c d : CoroId} {w : Wait} {b : Block}
  {e : Event} {spec : WaitSpec} {chain : List CoroId} {R : Wait → Obs → Prop}

theorem Rouses.reacts {o : Obs} (h : Rouses c o) : o.reacts = true := by
  cases o with
  | fired => rfl
  | cancelled => rfl
  | _ => exact absurd h id

/-- A coroutine is roused by the callback of an event set up for it, or by `cancel`. -/
theorem Reacts.rouses {o : Obs} (h : Reacts s a s' evs) (ho : o ∈ evs) (hrouses : Rouses c o) :
    (∃ b watcher revents e, s.reactor.event b = some e ∧ e.mayFire revents watcher = true ∧
      e.evArg = c ∧ o = .fired b e.evFd revents c) ∨
      (∃ coro, a = .user (.cancel coro)) ∧ o = .cancelled c := by
  have hwoken : ∀ c, o ∉ s.wokenBy .evet c := by
    intro c hmem
    have hsilent := reacts_wokenBy o hmem
    rw [hrouses.reacts] at hsilent
    cases hsilent
  cases h with
  | still _ _ hevs =>
      have hsilent := hevs o ho
      rw [hrouses.reacts] at hsilent
      cases hsilent
  | begins _ _ _ _ _ hevs =>
      rw [hevs o ho hrouses.reacts] at hrouses
      exact absurd hrouses id
  | ends =>
      rw [List.mem_singleton.mp ho] at hrouses
      exact absurd hrouses id
  | fires he hmay =>
      obtain rfl := (List.mem_cons.mp ho).resolve_right (hwoken _)
      obtain rfl : _ = c := hrouses
      exact .inl ⟨_, _, _, _, he, hmay, rfl, rfl⟩
  | cancels =>
      obtain rfl := List.mem_singleton.mp ((List.mem_append.mp ho).resolve_left (hwoken _))
      obtain rfl : _ = c := hrouses
      exact .inr ⟨⟨_, rfl⟩, rfl⟩

theorem sinceWait_append (h : ∀ spec b, .waitBegan c spec b ∉ evs) :
    sinceWait c (tr ++ evs) = sinceWait c tr ++ evs := by
  refine Transition.since_append tr fun o ho => ?_
  cases o with
  | waitBegan d spec b =>
      refine decide_eq_false ?_
      rintro rfl
      exact h spec b ho
  | _ => rfl

/-- While a coroutine is in a wait, no other begins for it. -/
theorem Reacts.noneBegan (h : Reacts s a s' evs) (hself : WaitsOwn s a)
    (hwait : s.waitIn (some c) ≠ none) (spec : WaitSpec) (b : Block) :
    .waitBegan c spec b ∉ evs := by
  intro hmem
  cases h with
  | still _ _ hevs => exact absurd (hevs _ hmem) (by simp [Obs.reacts])
  | begins hstarts _ hfree _ _ hevs =>
      obtain ⟨rfl, _⟩ := Obs.waitBegan.inj (hevs _ hmem rfl)
      rw [hstarts.self hself] at hfree
      exact hwait hfree
  | ends => cases List.mem_singleton.mp hmem
  | fires =>
      rcases List.mem_cons.mp hmem with heq | hmem
      · cases heq
      · exact absurd (reacts_wokenBy _ hmem) (by simp [Obs.reacts])
  | cancels =>
      rcases List.mem_append.mp hmem with hmem | hmem
      · exact absurd (reacts_wokenBy _ hmem) (by simp [Obs.reacts])
      · cases List.mem_singleton.mp hmem

theorem chk_startWait_self (s : State) (w : FlagWord) (c : CoroId) :
    (s.startWait w c).chk w c coroEvetWait = true := by
  rw [State.startWait, State.chk, State.setFlags_flags, if_pos ⟨rfl, rfl⟩, hasBit_or]
  simp [coroEvetWait, hasBit]

theorem chk_startWait_mono {w w' : FlagWord} (h : s.chk w' d coroEvetWait = true) :
    (s.startWait w c).chk w' d coroEvetWait = true := by
  by_cases hself : w' = w ∧ d = c
  · rw [hself.1, hself.2]
    exact chk_startWait_self s w c
  · rwa [(chk_startWait s w c w' d).2 (by tauto)]

theorem EnterPass.keeps_evet {coro : Option CoroId} (hpass : EnterPass t coro s' evs)
    (h : t.chk .evet c coroEvetWait = true) : s'.chk .evet c coroEvetWait = true :=
  (hpass.chk .evet c).1.trans h

/-- `CORO_EVET_WAIT` is cleared by callbacks and by `cancel` only. -/
theorem Effect.evetWait (hok : KeepsWaits s a) (heffect : Effect s a s' evs) (hc : c ∈ s.pool)
    (h : s.chk .evet c coroEvetWait = true) :
    s'.chk .evet c coroEvetWait = true ∨ ∃ o ∈ evs, Rouses c o := by
  cases heffect with
  | resumePass _ _ _ _ hpass => exact .inl (hpass.keeps_evet h)
  | allPass _ _ _ hpass => exact .inl (hpass.keeps_evet h)
  | executePass _ _ _ hpass => exact .inl (hpass.keeps_evet h)
  | mgetSleep _ _ _ hpass => exact .inl (hpass.keeps_evet (chk_startWait_mono h))
  | @create d raw _ hd =>
      left
      have hne : c ≠ d := fun heq => hd (heq ▸ hc)
      unfold State.chk at h ⊢
      rwa [State.setFlags_flags, if_neg fun hself => hne hself.2, State.setFlags_flags,
        if_neg fun hself => hne hself.2]
  | callPass _ hpass => exact .inl (hpass.keeps_evet h)
  | callYield _ _ hpass => exact .inl (hpass.keeps_evet h)
  | waitMain => exact .inl (chk_startWait_mono h)
  | waitCoro _ _ _ _ hpass => exact .inl (hpass.keeps_evet (chk_startWait_mono h))
  | quiet _ hquiet =>
      cases hquiet with
      | idle => exact .inl h
      | mput hput => exact .inl (((State.mput_spreads hput).evet c).trans h)
      | mbroadcast hcast => exact .inl (((State.mbroadcast_ok hcast).2.evet c).trans h)
      | mget => exact .inl h
      | cancel hcancel =>
          rcases State.cancel_ok hcancel with ⟨rfl, _⟩ | ⟨d, _, _, _, _, _, hwakes, _, _, rfl⟩
          · exact .inl h
          · by_cases hcd : c = d
            · exact .inr ⟨_, List.mem_append_right _ List.mem_cons_self, hcd.symm⟩
            · exact .inl ((hwakes.others .evet c (.inr hcd)).trans h)
      | fire hfire =>
          obtain ⟨e, _, _, _, hwakes, _, _, rfl⟩ := State.fire_ok hfire
          by_cases hce : c = e.evArg
          · exact .inr ⟨_, List.mem_cons_self, hce.symm⟩
          · exact .inl ((hwakes.others .evet c (.inr hce)).trans h)
      | @flag op word d m _ hset =>
          refine .inl (State.setter_keeps hset ?_ h)
          rintro ⟨rfl, rfl⟩
          exact hok h
  | _ => exact .inl h

/-- A coroutine that starts a wait for itself falls asleep. -/
theorem Effect.waitBegan (hinv : SchedInv s.toSched) (hok : WaitsOwn s a)
    (heffect : Effect s a s' evs) (hbegan : .waitBegan c spec b ∈ evs) :
    s'.chk .evet c coroEvetWait = true ∧ Asleep s'.toSched c := by
  cases heffect with
  | waitMain _ hrun hstarts =>
      rw [hstarts.self hok] at hrun
      cases hrun
  | @waitCoro _ d q _ _ r _ _ _ hrun hstarts hlive hpass =>
      obtain rfl : d = q := Option.some.inj ((hstarts.self hok).symm.trans hrun)
      have hd : c = d := by
        rcases List.mem_cons.mp hbegan with heq | hmem
        · exact (Obs.waitBegan.inj heq).1
        · exact absurd hmem (hpass.only nofun)
      subst hd
      refine ⟨hpass.keeps_evet (chk_startWait_self s .evet c), ?_, ?_, fun _ => ?_⟩
      · rw [hpass.frame]
        exact hlive
      · rw [hpass.frame]
        show s.stat c ≠ coroStatDone
        rw [hinv.running_busy hrun]
        decide
      · refine hpass.mem_stack ?_
        exact hrun ▸ mem_push ((s.startWait .evet c).push (.wait c _ _)).toSched _
  | resumePass _ _ _ _ hpass => exact absurd hbegan (hpass.only nofun)
  | allPass _ _ _ hpass => exact absurd hbegan (hpass.only nofun)
  | executePass _ _ _ hpass => exact absurd hbegan (hpass.only nofun)
  | mgetSleep _ _ _ hpass => exact absurd hbegan (hpass.only nofun)
  | callPass _ hpass => exact absurd hbegan (hpass.only nofun)
  | callYield _ _ hpass => exact absurd hbegan (hpass.only nofun)
  | quiet _ hquiet => exact absurd (hquiet.events _ hbegan) Bool.false_ne_true
  | _ => simp at hbegan

/-- A step of a run in which each wait is made by its own coroutine, nothing but the
reactor clears the flags, and no coroutine is resumed that is suspended in a `resume`. -/
structure Course (s : State) (a : Act) (evs : List Obs) (s' : State) : Prop where
  inv : SchedInv s.toSched
  chain : ∃ chain, ResumerChain s.toSched chain
  off : TransfersOffChain s a
  self : WaitsOwn s a
  keeps : KeepsWaits s a
  own : OwnWaits s
  effect : Effect s a s' evs

/-- Each wait in progress goes on asleep, or some event since it began is a reason for
it to end. -/
def Reasons (R : Wait → Obs → Prop) (tr : List Obs) (s : State) : Prop :=
  ∀ w, s.waitIn (some w.coro) = some w →
    s.chk .evet w.coro coroEvetWait = true ∧ Asleep s.toSched w.coro ∨
      ∃ o ∈ sinceWait w.coro tr, R w o

theorem reasons_init : Reasons R [] State.init := by
  intro w hw
  cases hw

/-- A wait that ends is not asleep, so it has its reason. -/
theorem Reasons.ended (hreasons : Reasons R tr s) (hinv : SchedInv s.toSched)
    (hchain : ResumerChain s.toSched chain) (hown : OwnWaits s) (hreacts : Reacts s a s' evs)
    (hended : .waitEnded c spec b ∈ evs) : ∃ o ∈ sinceWait c tr, R ⟨c, spec, b⟩ o := by
  cases hreacts with
  | still _ _ hevs => exact absurd (hevs _ hended) (by simp [Obs.reacts])
  | begins _ _ _ _ _ hevs => cases hevs _ hended rfl
  | @ends w _ _ htop hwait =>
      obtain ⟨rfl, rfl, rfl⟩ := Obs.waitEnded.inj (List.mem_singleton.mp hended)
      have hrun := hown _ w hwait
      rw [hrun] at hwait
      refine (hreasons w hwait).resolve_left fun hasleep => ?_
      have hawake := hinv.yield_notMem hrun htop rfl (by rintro ⟨⟩)
      exact hasleep.2.not_body hchain hrun hawake
  | fires =>
      rcases List.mem_cons.mp hended with heq | hended
      · cases heq
      · exact absurd (reacts_wokenBy _ hended) (by simp [Obs.reacts])
  | cancels =>
      rcases List.mem_append.mp hended with hended | hended
      · exact absurd (reacts_wokenBy _ hended) (by simp [Obs.reacts])
      · cases List.mem_singleton.mp hended

theorem waitIn_live {t : Sched} (h : t.waitIn (some c) = some w) : c ∈ t.pool := by
  by_contra hc
  rw [Sched.waitIn, if_neg hc] at h
  cases h

namespace Course

theorem reacts (h : Course s a evs s') : Reacts s a s' evs := h.inv.reacts h.effect

theorem own' (h : Course s a evs s') : OwnWaits s' := h.own.step h.self h.reacts

/-- A wait that is in progress before and after the step. -/
theorem goesOn (h : Course s a evs s') (hreasons : Reasons R tr s)
    (hwait : s.waitIn (some w.coro) = some w)
    (hrouses : s.chk .evet w.coro coroEvetWait = true → ∀ o ∈ evs, Rouses w.coro o → R w o) :
    s'.chk .evet w.coro coroEvetWait = true ∧ Asleep s'.toSched w.coro ∨
      ∃ o ∈ sinceWait w.coro (tr ++ evs), R w o := by
  rw [sinceWait_append (h.reacts.noneBegan h.self (by rw [hwait]; nofun))]
  rcases hreasons w hwait with ⟨hflag, hasleep⟩ | ⟨o, ho, hR⟩
  · rcases h.effect.evetWait h.keeps (waitIn_live hwait) hflag with hkept | ⟨o, ho, hrouse⟩
    · obtain ⟨chain, hchain⟩ := h.chain
      refine .inl ⟨hkept, hasleep.step h.inv hchain h.off h.effect fun hnew => ?_⟩
      have hno := (h.effect.transferred hnew).2.1
      rw [waiting_iff.mpr ⟨.evet, hflag⟩] at hno
      cases hno
    · exact .inr ⟨o, List.mem_append_right _ ho, hrouses hflag o ho hrouse⟩
  · exact .inr ⟨o, List.mem_append_left _ ho, hR⟩

theorem reasons (h : Course s a evs s') (hreasons : Reasons R tr s)
    (hrouses : ∀ w, s.waitIn (some w.coro) = some w → s.chk .evet w.coro coroEvetWait = true →
      ∀ o ∈ evs, Rouses w.coro o → R w o) : Reasons R (tr ++ evs) s' := by
  intro w hw
  cases h.reacts with
  | still hwaits =>
      rw [hwaits] at hw
      exact h.goesOn hreasons hw (hrouses w hw)
  | begins hstarts _ _ hwaits hbegan =>
      rw [hwaits, hstarts.self h.self, Function.update_apply] at hw
      split at hw
      · obtain rfl := Option.some.inj hw
        exact .inl (h.effect.waitBegan h.inv h.self hbegan)
      · exact h.goesOn hreasons hw (hrouses w hw)
  | ends _ _ hwaits =>
      rw [hwaits, Function.update_apply] at hw
      split at hw
      · cases hw
      · exact h.goesOn hreasons hw (hrouses w hw)
  | fires _ _ hwaits =>
      rw [hwaits] at hw
      exact h.goesOn hreasons hw (hrouses w hw)
  | cancels _ _ _ hwaits =>
      rw [hwaits] at hw
      exact h.goesOn hreasons hw (hrouses w hw)

/-- What each such step keeps holds after every run of them. -/
theorem run {ok : State → Act → Prop} {P : List Obs → State → Prop}
    (himp : ∀ s a, ok s a → TransfersOffChain s a ∧ WaitsOwn s a ∧ KeepsWaits s a)
    (hkeeps : ∀ tr s a evs s', Course s a evs s' → ok s a → P tr s → P (tr ++ evs) s')
    (hrun : RunOf ok tr s) (hP : P [] State.init) :
    SchedInv s.toSched ∧ (∃ chain, ResumerChain s.toSched chain) ∧ OwnWaits s ∧ P tr s := by
  refine Transition.Run.invariant_trace (I := fun tr s => SchedInv s.toSched ∧
    (∃ chain, ResumerChain s.toSched chain) ∧ OwnWaits s ∧ P tr s) ?_ hrun
    ⟨schedInv_init, ⟨[], .nil, fun _ hc => absurd hc List.not_mem_nil⟩, ownWaits_init, hP⟩
  intro tr s a s' evs hall hok hstep
  obtain ⟨hinv, hchain, hown, hP⟩ := hall
  obtain ⟨hoff, hself, hkeepsWaits⟩ := himp s a hok
  have hcourse : Course s a evs s' :=
    ⟨hinv, hchain, hoff, hself, hkeepsWaits, hown, hinv.effect hstep⟩
  obtain ⟨chain, hchain⟩ := hchain
  obtain ⟨chain', hstep'⟩ := hchain.step hinv hoff hcourse.effect
  exact ⟨hinv.step hcourse.effect, ⟨chain', hstep'.keeps⟩, hcourse.own',
    hkeeps tr s a evs s' hcourse hok hP⟩

end Course

/-! ## What an event can report -/

namespace Event

/-- What the signal or I/O watcher of an event reports. -/
def watched (e : Event) : EventMask :=
  if hasBit e.evEvents evSignal then evSignal else e.evEvents &&& (evRead ||| evWrite)

/-- All that an event may still report is what the wait is for. -/
def Fits (e : Event) : WaitSpec → Prop
  | .io fd mask _ => e.toActive = false ∧
      (e.iosigActive = true → e.evFd = fd ∧ e.watched &&& mask = e.watched)
  | .timeout _ => e.toActive = false ∧ e.iosigActive = false
  | .signal _ => e.toActive = false ∧ e.iosigActive = false

instance (e : Event) (spec : WaitSpec) : Decidable (e.Fits spec) := by
  cases spec <;> unfold Fits <;> infer_instance

theorem mayFire_iosig {revents : EventMask} (h : e.mayFire revents .iosig = true) :
    e.iosigActive = true ∧ revents ≠ 0 ∧ revents &&& e.watched = revents := by
  simp only [mayFire, Bool.and_eq_true] at h
  obtain ⟨hactive, h⟩ := h
  refine ⟨hactive, ?_⟩
  unfold watched
  split at h
  next hsignal =>
    obtain rfl := eq_of_beq h
    rw [if_pos hsignal]
    exact ⟨by decide, by decide⟩
  next hsignal =>
    rw [if_neg hsignal]
    simpa using h

theorem mayFire_to {revents : EventMask} (h : e.mayFire revents .to = true) :
    e.toActive = true ∧ revents = evTimeout := by
  simpa [mayFire] using h

end Event

theorem evSignal_and {mask : EventMask} (h : hasBit mask evSignal = true) :
    evSignal &&& mask = evSignal := by
  have hbit : evSignal = BitVec.twoPow 16 10 := by decide
  have hne : mask &&& evSignal ≠ 0 := by simpa [hasBit] using h
  rw [hbit, BitVec.and_twoPow] at hne
  rw [hbit, BitVec.and_comm, BitVec.and_twoPow]
  split at hne
  next hset => rw [if_pos hset]
  next => exact absurd rfl hne

/-- The reasons for a wait to end. -/
def Wait.Reason (w : Wait) : Obs → Prop
  | .cancelled c => c = w.coro
  | .fired b fd revents c => c = w.coro ∧
      match w.spec with
      | .io fd' mask _ =>
        fd = fd' ∧ revents ≠ 0 ∧ revents &&& mask = revents ∨ b = w.event ∧ revents = evTimeout
      | .timeout _ => b = w.event ∧ revents = evTimeout
      | .signal _ => b = w.event ∧ revents = evSignal
  | _ => False

instance (w : Wait) (o : Obs) : Decidable (w.Reason o) := by
  unfold Wait.Reason
  split
  · infer_instance
  · split <;> infer_instance
  · infer_instance

/-- What the event of a wait reports is a reason for it to end. -/
theorem newEvent_reason {revents : EventMask} {watcher : Watcher}
    (h : (w.spec.newEvent w.coro).mayFire revents watcher = true) :
    w.Reason (.fired w.event (w.spec.newEvent w.coro).evFd revents w.coro) := by
  refine ⟨rfl, ?_⟩
  cases hspec : w.spec with
  | io fd mask time =>
      rw [hspec] at h
      cases watcher with
      | iosig =>
          obtain ⟨_, hne, hsub⟩ := Event.mayFire_iosig h
          refine .inl ⟨rfl, hne, ?_⟩
          have hmask : ((WaitSpec.io fd mask time).newEvent w.coro).watched &&& mask =
              ((WaitSpec.io fd mask time).newEvent w.coro).watched := by
            show (if hasBit mask evSignal then evSignal
                else mask &&& (evRead ||| evWrite)) &&& mask =
              if hasBit mask evSignal then evSignal else mask &&& (evRead ||| evWrite)
            split
            next hsignal => exact evSignal_and hsignal
            next => rw [BitVec.and_comm, ← BitVec.and_assoc, BitVec.and_self]
          calc revents &&& mask
              = revents &&& (((WaitSpec.io fd mask time).newEvent w.coro).watched &&& mask) := by
                rw [← BitVec.and_assoc, hsub]
            _ = revents := by rw [hmask, hsub]
      | «to» => exact .inr ⟨rfl, (Event.mayFire_to h).2⟩
  | timeout time =>
      rw [hspec] at h
      cases watcher with
      | iosig =>
          have hoff : ((WaitSpec.timeout time).newEvent w.coro).iosigActive = false := by
            simp only [WaitSpec.newEvent, Event.timeoutSet, Event.add, Event.set, Event.watches]
            decide
          rw [(Event.mayFire_iosig h).1] at hoff
          cases hoff
      | «to» => exact ⟨rfl, (Event.mayFire_to h).2⟩
  | signal number =>
      rw [hspec] at h
      cases watcher with
      | iosig =>
          have hsignal : hasBit (evSignal ||| evPersist) evSignal = true := by decide
          simp only [Event.mayFire, WaitSpec.newEvent, Event.signalSet, Event.add, Event.set,
            hsignal, if_true, Bool.and_eq_true] at h
          exact ⟨rfl, eq_of_beq h.2⟩
      | «to» =>
          have hoff : ((WaitSpec.signal number).newEvent w.coro).toActive = false := rfl
          rw [(Event.mayFire_to h).1] at hoff
          cases hoff

/-- What a fitting event reports is a reason for the wait to end. -/
theorem Event.Fits.reason {revents : EventMask} {watcher : Watcher} (hfits : e.Fits w.spec)
    (h : e.mayFire revents watcher = true) : w.Reason (.fired b e.evFd revents w.coro) := by
  refine ⟨rfl, ?_⟩
  cases watcher with
  | iosig =>
      obtain ⟨hactive, hne, hsub⟩ := Event.mayFire_iosig h
      cases hspec : w.spec with
      | io fd mask time =>
          rw [hspec] at hfits
          obtain ⟨hfd, hmask⟩ := hfits.2 hactive
          refine .inl ⟨hfd, hne, ?_⟩
          calc revents &&& mask
              = revents &&& (e.watched &&& mask) := by rw [← BitVec.and_assoc, hsub]
            _ = revents := by rw [hmask, hsub]
      | timeout time =>
          rw [hspec] at hfits
          rw [hfits.2] at hactive
          cases hactive
      | signal number =>
          rw [hspec] at hfits
          rw [hfits.2] at hactive
          cases hactive
  | «to» =>
      have hoff : e.toActive = false := by
        cases hspec : w.spec <;> rw [hspec] at hfits <;> exact hfits.1
      rw [(Event.mayFire_to h).1] at hoff
      cases hoff

/-! ## Waits that end for their own reasons -/

/-- Every event set up before for the running coroutine fits the wait. -/
def LeftFits (s : State) (spec : WaitSpec) : Prop :=
  ∀ b ∈ s.reactor.eventAllocator.held, ∀ e ∈ s.reactor.event b,
    s.running = some e.evArg → e.Fits spec

instance (s : State) (spec : WaitSpec) : Decidable (LeftFits s spec) := by
  unfold LeftFits
  infer_instance

/-- A wait starts only if all that was set up before for its coroutine fits it. -/
def StartsFit (s : State) : Act → Prop
  | .user (.setIo fd mask timeout _) => LeftFits s (.io fd mask timeout)
  | .user (.setTimeout timeout _) => timeout ≤ 0 ∨ LeftFits s (.timeout timeout)
  | .user (.setSignal signal _) => LeftFits s (.signal signal)
  | _ => True

instance (s : State) (a : Act) : Decidable (StartsFit s a) := by
  induction a using Act.casesOn with
  | lib => exact instDecidableTrue
  | user u => induction u using User.casesOn <;> unfold StartsFit <;> infer_instance

theorem StartsWait.leftFits {u : User} {r : Coreactor} (h : StartsWait s u c spec b r)
    (hok : StartsFit s (.user u)) : LeftFits s spec := by
  cases h with
  | io => exact hok
  | timeout _ hpos => exact hok.resolve_left (by omega)
  | signal => exact hok

/-- While a wait is in progress, all that is set up for its coroutine reports reasons for
it to end. -/
structure Guards (s : State) : Prop where
  held : EventsHeld s.reactor
  reason : ∀ w, s.waitIn (some w.coro) = some w → ∀ b e, s.reactor.event b = some e →
    e.evArg = w.coro → ∀ revents watcher, e.mayFire revents watcher = true →
      w.Reason (.fired b e.evFd revents w.coro)

theorem guards_init : Guards State.init where
  held := eventsHeld_new
  reason := nofun

/-- A wait that was in progress before the step or that the step begins. -/
theorem Reacts.waitIn_old (h : Reacts s a s' evs) (hw : s'.waitIn (some w.coro) = some w) :
    s.waitIn (some w.coro) = some w ∨
      ∃ u, a = .user u ∧ StartsWait s u w.coro w.spec w.event s'.reactor := by
  cases h with
  | still hwaits => exact .inl (hwaits ▸ hw)
  | begins hstarts _ _ hwaits =>
      rw [hwaits, Function.update_apply] at hw
      split at hw
      · obtain rfl := Option.some.inj hw
        exact .inr ⟨_, rfl, hstarts⟩
      · exact .inl hw
  | ends _ _ hwaits =>
      rw [hwaits, Function.update_apply] at hw
      split at hw
      · cases hw
      · exact .inl hw
  | fires _ _ hwaits => exact .inl (hwaits ▸ hw)
  | cancels _ _ _ hwaits => exact .inl (hwaits ▸ hw)

theorem Guards.step (h : Guards s) (hself : WaitsOwn s a) (hok : StartsFit s a)
    (hreacts : Reacts s a s' evs) : Guards s' := by
  refine ⟨h.held.step hreacts, fun w hw b e he harg revents watcher hmay => ?_⟩
  rcases hreacts.event he with ⟨e₀, he₀, hremains⟩ | ⟨u, w', rfl, hstarts, hwaits, _, rfl, rfl⟩
  · rw [hremains.fd]
    have hmay₀ := hremains.fires revents watcher hmay
    have harg₀ : e₀.evArg = w.coro := hremains.arg.symm.trans harg
    rcases hreacts.waitIn_old hw with hold | ⟨u, rfl, hstarts⟩
    · exact h.reason w hold b e₀ he₀ harg₀ revents watcher hmay₀
    · -- the wait begins with this event set up before
      have hrun := hstarts.self hself
      exact (hstarts.leftFits hok b (h.held b e₀ he₀).1 e₀ he₀
        (hrun.trans (congrArg some harg₀.symm))).reason hmay₀
  · -- the event is that of the wait that begins
    rw [newEvent_evArg] at harg
    rw [hwaits, hstarts.self hself, harg, Function.update_self] at hw
    obtain rfl := Option.some.inj hw
    exact newEvent_reason hmay

/-- The runs whose waits end for their own reasons. -/
def ReasonDriven (s : State) (a : Act) : Prop :=
  TransfersOffChain s a ∧ WaitsOwn s a ∧ KeepsWaits s a ∧ StartsFit s a

instance (s : State) (a : Act) : Decidable (ReasonDriven s a) :=
  inferInstanceAs (Decidable (_ ∧ _ ∧ _ ∧ _))

theorem Course.rouses_reason (h : Course s a evs s') (hguards : Guards s)
    (hw : s.waitIn (some w.coro) = some w) {o : Obs} (ho : o ∈ evs) (hrouses : Rouses w.coro o) :
    w.Reason o := by
  rcases h.reacts.rouses ho hrouses with ⟨b, watcher, revents, e, he, hmay, harg, rfl⟩ | ⟨_, rfl⟩
  · exact hguards.reason w hw b e he harg revents watcher hmay
  · rfl

/-- In every run in which what was set up before for a coroutine fits each wait that it
starts, a wait ends only after its descriptor was ready, its time was up, its signal
came or its coroutine was cancelled, since it began. -/
theorem wait_ends_for_reason (h : RunOf ReasonDriven tr s)
    (hstep : s.step a = some (.ok (s', evs))) (hended : .waitEnded c spec b ∈ evs) :
    ∃ o ∈ sinceWait c tr, Wait.Reason ⟨c, spec, b⟩ o := by
  obtain ⟨hinv, ⟨chain, hchain⟩, hown, _, hreasons⟩ := Course.run
    (P := fun tr s => Guards s ∧ Reasons Wait.Reason tr s)
    (fun _ _ hok => ⟨hok.1, hok.2.1, hok.2.2.1⟩)
    (fun _ _ _ _ _ hcourse hok hall =>
      ⟨hall.1.step hcourse.self hok.2.2.2 hcourse.reacts,
        hcourse.reasons hall.2 fun _ hw _ _ ho hrouses =>
          hcourse.rouses_reason hall.1 hw ho hrouses⟩) h ⟨guards_init, reasons_init⟩
  exact hreasons.ended hinv hchain hown (hinv.reacts (hinv.effect hstep)) hended

/-- Coroutine 0 waits for a timer, which expires, and is resumed. -/
def sleepsOnce : List Act :=
  enterAlone ++ sleepAlone (.setTimeout 1000 none) ++ [.user (.fire 0 .to evTimeout)] ++ wakeAlone

theorem wait_ends_for_reason_timer : ∃ tr s s' evs, RunOf ReasonDriven tr s ∧
    s.step .lib = some (.ok (s', evs)) ∧ .waitEnded 0 (.timeout 1000) 0 ∈ evs ∧
      ∃ o ∈ sinceWait 0 tr, Wait.Reason ⟨0, .timeout 1000, 0⟩ o := by
  have hrun : RunOf ReasonDriven _
      (Transition.after State.step ReasonDriven State.init sleepsOnce).1 :=
    Transition.run_after (by decide +kernel)
  have hstep := (@Transition.step_after _ _ _ _ State.step ReasonDriven _
    (Transition.after State.step ReasonDriven State.init sleepsOnce).1 .lib
    (by decide +kernel)).2
  have hended : .waitEnded 0 (.timeout 1000) 0 ∈ (Transition.after State.step ReasonDriven
      (Transition.after State.step ReasonDriven State.init sleepsOnce).1 [.lib]).2 := by
    decide +kernel
  exact ⟨_, _, _, _, hrun, hstep, hended, wait_ends_for_reason hrun hstep hended⟩

/-- The runs in which control moves by passes and yields, each wait is made by the
coroutine it is for, and only the reactor clears `CORO_EVET_WAIT`. -/
def WaitDriven (s : State) (a : Act) : Prop := TreeDriven s a ∧ WaitsOwn s a ∧ KeepsWaits s a

instance (s : State) (a : Act) : Decidable (WaitDriven s a) :=
  inferInstanceAs (Decidable (_ ∧ _ ∧ _))

/-- Coroutine 0 accepts on descriptor 3, is served, and then waits once for 1000 ms,
until the event of the first wait fires again. -/
def acceptThenSleep : List Act :=
  enterAlone ++ sleepAlone (.setIo 3 (evRead ||| evPersist) (-1) none) ++
    [.user (.fire 0 .iosig evRead)] ++ wakeAlone ++ [.lib] ++
    sleepAlone (.setTimeout 1000 none) ++ [.user (.fire 0 .iosig evRead)] ++ wakeAlone

/-- Coroutine 0 accepts on descriptor 3, is served, and then accepts on descriptor 4,
until the event of the first wait fires again. -/
def acceptsElsewhere : List Act :=
  enterAlone ++ sleepAlone (.setIo 3 (evRead ||| evPersist) (-1) none) ++
    [.user (.fire 0 .iosig evRead)] ++ wakeAlone ++ [.lib] ++
    sleepAlone (.setIo 4 (evRead ||| evPersist) (-1) none) ++ [.user (.fire 0 .iosig evRead)] ++
    wakeAlone

/-- A `set_timeout` returns before its timer expires, and a `set_io` on one descriptor
after an event on another. -/
theorem wait_ends_for_another :
    (∃ tr s s' evs b, RunOf WaitDriven tr s ∧ s.step .lib = some (.ok (s', evs)) ∧
      .waitEnded 0 (.timeout 1000) b ∈ evs ∧
        ∀ o ∈ sinceWait 0 tr, ¬ Wait.Reason ⟨0, .timeout 1000, b⟩ o) ∧
    ∃ tr s s' evs b, RunOf WaitDriven tr s ∧ s.step .lib = some (.ok (s', evs)) ∧
      .waitEnded 0 (.io 4 (evRead ||| evPersist) (-1)) b ∈ evs ∧
        ∀ o ∈ sinceWait 0 tr, ¬ Wait.Reason ⟨0, .io 4 (evRead ||| evPersist) (-1), b⟩ o := by
  constructor
  · have hrun : RunOf WaitDriven _
        (Transition.after State.step WaitDriven State.init acceptThenSleep).1 :=
      Transition.run_after (by decide +kernel)
    have hstep := (@Transition.step_after _ _ _ _ State.step WaitDriven _
      (Transition.after State.step WaitDriven State.init acceptThenSleep).1 .lib
      (by decide +kernel)).2
    exact ⟨_, _, _, _, 1, hrun, hstep, by decide +kernel, by decide +kernel⟩
  · have hrun : RunOf WaitDriven _
        (Transition.after State.step WaitDriven State.init acceptsElsewhere).1 :=
      Transition.run_after (by decide +kernel)
    have hstep := (@Transition.step_after _ _ _ _ State.step WaitDriven _
      (Transition.after State.step WaitDriven State.init acceptsElsewhere).1 .lib
      (by decide +kernel)).2
    exact ⟨_, _, _, _, 1, hrun, hstep, by decide +kernel, by decide +kernel⟩

end BoostCoro.Coroutine
