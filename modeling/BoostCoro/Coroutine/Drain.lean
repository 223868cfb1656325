import BoostCoro.Coroutine.Spine
import BoostCoro.Coroutine.Wake
/-!
# The loop that drains a finished coroutine

When the function of a coroutine has returned, `execute` passes over its children
until none is left. A pass reaches a child of a coroutine only through the CHLD flag
of that coroutine, and resumes only who does not wait. When all that it reaches wait,
nobody runs, and as the loop never gives up control it goes on for ever.
-/

namespace BoostCoro.Coroutine

open Transition (Run)

/-! ## Iterations of the loop -/

/-- `execute` of `p` is at the head of the loop over its children. -/
def Sched.AtDrain (s : Sched) (p : CoroId) : Prop :=
  s.running = some p ∧ s.stack (some p) = [.execute p .childs]

instance (s : Sched) (p : CoroId) : Decidable (s.AtDrain p) := inferInstanceAs (Decidable (_ ∧ _))

/-- From one head of the loop to the next, whoever runs in between. -/
inductive Iteration (p : CoroId) (s : State) : List Obs → State → Prop
  | intro {s₁ s' : State} {tr evs : List Obs} (hstep : s.step .lib = some (.ok (s₁, evs)))
      (hrun : Run State.step (fun t _ => ¬ t.AtDrain p) s₁ tr s') (hhead : s'.AtDrain p) :
      Iteration p s (evs ++ tr) s'

namespace State

/-- `_stat & (CORO_STAT_INIT | CORO_STAT_WAIT)`. -/
def resumable (s : State) (c : CoroId) : Bool := hasBit (s.stat c) (coroStatInit ||| coroStatWait)

/-- A `resume` of `c` neither runs nor destroys it. -/
def Blocked (s : State) (c : CoroId) : Prop :=
  c ∈ s.pool ∧ s.stat c ≠ coroStatDone ∧ (s.resumable c = true → s.waiting c = true)

/-- The coroutines that a pass over the children `l` gets to, through CHLD flags. -/
inductive Reached (s : State) (l : List CoroId) : CoroId → Prop
  | child {c : CoroId} (hc : c ∈ l) : Reached s l c
  | nested {c d : CoroId} (hc : Reached s l c) (hready : s.resumable c = true)
      (hnotified : s.notified c = true) (hd : d ∈ s.coroChilds (some c)) : Reached s l d

end State

/-- The events of the loops themselves. -/
def Obs.ofLoop : Obs → Bool
  | passBegin _ => true
  | passEnd _ => true
  | _ => false

/-- A pass takes a step. -/
def Passing (s : State) (a : Act) : Prop :=
  a = .lib ∧ ∃ f rest, s.stack s.running = f :: rest ∧ f.isPass = true

variable {s s' t t' : State} {a : Act} {tr evs : List Obs} {p c d : CoroId} {cur : Ctx}
  {rest : List Frame} {l l' : List CoroId} {loop : Nat}

theorem Passing.only {i j : Act} (h : Passing s i) (hstep : s.step j = some (.ok (s', evs))) :
    j = i := by
  obtain ⟨rfl, f, rest, htop, hf⟩ := h
  exact State.act_eq_lib htop (Frame.ne_body_of_isPass hf) hstep

theorem Passing.not_atDrain (h : Passing s a) (hhead : s.AtDrain p) : False := by
  obtain ⟨-, f, rest, htop, hf⟩ := h
  rw [hhead.1, hhead.2] at htop
  cases htop
  cases hf

/-! ## The steps of a pass -/

theorem step_lib_of_pass {f : Frame} (htop : s.stack s.running = f :: rest)
    (hf : f.isPass = true) : s.step .lib = some (s.stepFrame rest f) :=
  State.step_lib_eq htop (Frame.ne_body_of_isPass hf)

theorem delFlag_chld_eq {w : FlagWord} {tested : StatT} (hlive : c ∈ s.pool) :
    State.delFlag w tested s c coroEvetChld =
      .ok (s.setFlags w c (s.flags w c &&& ~~~coroEvetChld)) := by
  have hnone : s.notifyEnd w tested c coroEvetChld = .ok s := by
    unfold State.notifyEnd
    rw [FlagWord.wait_eq, if_neg fun h => absurd h.2 (by decide)]
  have hcheck : s.checkLive c = .ok () := if_pos hlive
  unfold State.delFlag
  rw [hcheck, Fallible.ok_bind, hnone, Fallible.ok_bind]

/-- A coroutine enters the pass, unless it asks for its own list and is not notified. -/
theorem callResumeChildsOf_eq (coro : Option CoroId) (hrun : s.running = some p)
    (hlive : coro.getD p ∈ s.pool) (hself : coro = some p → s.notified p = true) :
    s.callResumeChildsOf p coro =
      .ok ((s.dropChld (some (coro.getD p))).enterPass (some p) (some (coro.getD p))) := by
  have hevet : s.eventDel (coro.getD p) coroEvetChld = .ok _ := delFlag_chld_eq hlive
  have hmsg : State.msgDel (s.setFlags .evet (coro.getD p)
      (s.flags .evet (coro.getD p) &&& ~~~coroEvetChld)) (coro.getD p) coroMesgChld = .ok _ :=
    delFlag_chld_eq hlive
  have hskip : ¬ (coro = some p ∧ s.chk .evet (coro.getD p) coroEvetChld = false ∧
      s.chk .msg (coro.getD p) coroEvetChld = false) := by
    rintro ⟨rfl, hno⟩
    have hyes := hself rfl
    rw [State.notified, Bool.or_eq_true] at hyes
    exact hyes.elim (fun h => Bool.false_ne_true (hno.1.symm.trans h))
      fun h => Bool.false_ne_true (hno.2.symm.trans h)
  unfold State.callResumeChildsOf
  rw [if_neg hskip, hevet, Fallible.ok_bind, hmsg, Fallible.ok_bind]
  simp only [State.dropChld, hrun]
  rfl

section

variable (hrun : t.running = some p)

include hrun

theorem step_pass {f : Frame} (htop : t.stack (some p) = f :: rest) (hf : f.isPass = true) :
    t.step .lib = some (t.stepFrame rest f) := step_lib_of_pass (by rw [hrun, htop]) hf

theorem step_hold (htop : t.stack (some p) = .resumeChilds (some p) cur (loop + 1) none :: rest)
    (howner : t.OwnerLive cur) (hlist : t.coroChilds cur = c :: l) (hlive : c ∈ t.pool)
    (hdone : t.stat c ≠ coroStatDone) :
    t.step .lib = some (.ok ((t.setChilds cur l).setStack (.resume (some p) c .entry ::
      .resumeChilds (some p) cur loop (some c) :: rest), [])) := by
  have hcheck : (t.setChilds cur l).checkLive c = .ok () := if_pos hlive
  have howner : t.checkOwner cur = .ok () := checkOwner_eq_ok.mpr howner
  rw [step_pass hrun htop rfl]
  simp only [State.stepFrame, State.passTurn, howner, Fallible.ok_bind, hlist, hcheck]
  rw [if_neg (by exact hdone)]
  rfl

theorem step_keep (htop : t.stack (some p) = .resumeChilds (some p) cur loop (some c) :: rest)
    (howner : t.OwnerLive cur) (hlive : c ∈ t.pool) (hdone : t.stat c ≠ coroStatDone) :
    t.step .lib = some (.ok ((t.setChilds cur (t.coroChilds cur ++ [c])).setStack
      (.resumeChilds (some p) cur loop none :: rest), [])) := by
  have hcheck : t.checkLive c = .ok () := if_pos hlive
  have howner : (t.setStack (.resumeChilds (some p) cur loop none :: rest)).checkOwner cur =
      .ok () := checkOwner_eq_ok.mpr howner
  rw [step_pass hrun htop rfl]
  simp only [State.stepFrame, State.passBack, hcheck, Fallible.ok_bind]
  rw [if_neg (by exact hdone), howner]
  rfl

theorem step_passEnd (htop : t.stack (some p) = .resumeChilds (some p) cur 0 none :: rest) :
    t.step .lib = some (.ok (t.setStack rest, [.passEnd cur])) := step_pass hrun htop rfl

theorem step_idle (htop : t.stack (some p) = .resume (some p) c .entry :: rest)
    (hlive : c ∈ t.pool) (hdone : t.stat c ≠ coroStatDone) (hready : t.resumable c = false) :
    t.step .lib = some (.ok (t.setStack rest, [])) := by
  have hcheck : t.checkLive c = .ok () := if_pos hlive
  have hready : hasBit (t.stat c) (coroStatInit ||| coroStatWait) = false := hready
  rw [step_pass hrun htop rfl]
  simp only [State.stepFrame, State.resumeEntry, hcheck, Fallible.ok_bind]
  rw [if_neg hdone, if_neg (Bool.eq_false_iff.mp hready)]

theorem step_straight (htop : t.stack (some p) = .resume (some p) c .entry :: rest)
    (hlive : c ∈ t.pool) (hdone : t.stat c ≠ coroStatDone) (hready : t.resumable c = true)
    (hno : t.notified c = false) :
    t.step .lib = some (.ok (t.setStack (.resume (some p) c .transfer :: rest), [])) := by
  have hcheck : t.checkLive c = .ok () := if_pos hlive
  have hno : ((t.setStack (.resume (some p) c .transfer :: rest)).chk .evet c coroEvetChld ||
      (t.setStack (.resume (some p) c .transfer :: rest)).chk .msg c coroMesgChld) = false := hno
  rw [step_pass hrun htop rfl]
  simp only [State.stepFrame, State.resumeEntry, hcheck, Fallible.ok_bind]
  rw [if_neg hdone, if_pos (by exact hready), if_neg (Bool.eq_false_iff.mp hno)]

theorem step_nested (htop : t.stack (some p) = .resume (some p) c .entry :: rest)
    (hlive : c ∈ t.pool) (hdone : t.stat c ≠ coroStatDone) (hready : t.resumable c = true)
    (hyes : t.notified c = true) (hother : c ≠ p) :
    t.step .lib = some (.ok
      (((t.setStack (.resume (some p) c .transfer :: rest)).dropChld (some c)).enterPass
        (some p) (some c))) := by
  have hcheck : t.checkLive c = .ok () := if_pos hlive
  have hyes : ((t.setStack (.resume (some p) c .transfer :: rest)).chk .evet c coroEvetChld ||
      (t.setStack (.resume (some p) c .transfer :: rest)).chk .msg c coroMesgChld) = true := hyes
  rw [step_pass hrun htop rfl]
  simp only [State.stepFrame, State.resumeEntry, hcheck, Fallible.ok_bind]
  rw [if_neg hdone, if_pos (by exact hready), if_pos hyes]
  have hself : (t.setStack (.resume (some p) c .transfer :: rest)).running = some p := hrun
  have hlive : c ∈ (t.setStack (.resume (some p) c .transfer :: rest)).pool := hlive
  have hcoro : some c ≠ some p := fun h => hother (Option.some.inj h)
  exact congrArg some (callResumeChildsOf_eq (some c) hself hlive fun h => absurd h hcoro)

theorem step_waiting (htop : t.stack (some p) = .resume (some p) c .transfer :: rest)
    (hlive : c ∈ t.pool) (hwait : t.waiting c = true) :
    t.step .lib = some (.ok (t.setStack rest, [])) := by
  have hcheck : t.checkLive c = .ok () := if_pos hlive
  rw [step_pass hrun htop rfl]
  simp only [State.stepFrame, State.resumeTransfer, hcheck, Fallible.ok_bind]
  rw [if_pos hwait]

/-- If it does not fail, it resumes `c`. -/
theorem step_transfers (htop : t.stack (some p) = .resume (some p) c .transfer :: rest)
    (hwait : t.waiting c = false) (hstep : t.step .lib = some (.ok (t', evs))) :
    .transferred c ∈ evs := by
  rw [step_pass hrun htop rfl] at hstep
  obtain ⟨_, _, h⟩ := Fallible.bind_eq_ok.mp (Option.some.inj hstep)
  rw [if_neg (Bool.eq_false_iff.mp hwait)] at h
  obtain ⟨_, _, h⟩ := Fallible.bind_eq_ok.mp h
  obtain ⟨_, rfl⟩ := Prod.mk.inj (Except.ok.inj h)
  exact List.mem_singleton_self _

/-- If it does not fail, a turn that does not hold `c` destroys it. -/
theorem step_destroys (htop : t.stack (some p) = .resumeChilds (some p) cur (loop + 1) none :: rest)
    (hlist : t.coroChilds cur = c :: l) (hno : c ∉ t.pool ∨ t.stat c = coroStatDone)
    (hstep : t.step .lib = some (.ok (t', evs))) : .destroyed c ∈ evs := by
  rw [step_pass hrun htop rfl] at hstep
  have hturn : t.passTurn (some p) cur (loop + 1) rest = .ok (t', evs) := Option.some.inj hstep
  obtain ⟨_, _, -, hfront, hlive, ⟨-, rfl, -⟩ | ⟨hdone, -, -⟩⟩ := passTurn_ok hturn
  · obtain ⟨rfl, -⟩ := List.cons.inj (hlist.symm.trans hfront)
    exact List.mem_singleton_self _
  · obtain ⟨rfl, -⟩ := List.cons.inj (hlist.symm.trans hfront)
    exact absurd (hno.resolve_left fun h => h hlive) hdone

end

/-! ## States between which nobody runs -/

/-- Nobody ran, and CHLD was cleared only for some coroutines of `opened`. -/
structure Stills (opened : CoroId → Prop) (t t' : State) : Prop where
  sched : t'.toSched = { t.toSched with stack := t'.stack, coroChilds := t'.coroChilds }
  stack : ∀ x, x ≠ t.running → t'.stack x = t.stack x
  messages : t'.coroMessages = t.coroMessages
  reactor : t'.reactor = t.reactor
  flags : ∀ c, (∀ w, t'.flags w c = t.flags w c) ∨
    opened c ∧ ∀ w, t'.flags w c = t.flags w c &&& ~~~coroEvetChld

namespace Stills

variable {u : State} {opened opened' : CoroId → Prop}

theorem of_flags_eq (hsched : t'.toSched = { t.toSched with
      stack := t'.stack, coroChilds := t'.coroChilds })
    (hstack : ∀ x, x ≠ t.running → t'.stack x = t.stack x)
    (hmessages : t'.coroMessages = t.coroMessages) (hreactor : t'.reactor = t.reactor)
    (hflags : t'.flags = t.flags) : Stills opened t t' :=
  ⟨hsched, hstack, hmessages, hreactor, fun c => .inl fun w => by rw [hflags]⟩

theorem setStack (t : State) (fs : List Frame) : Stills opened t (t.setStack fs) :=
  .of_flags_eq rfl (fun _ hx => Function.update_of_ne hx ..) rfl rfl rfl

theorem setChilds (t : State) (cur : Ctx) (l : List CoroId) :
    Stills opened t (t.setChilds cur l) :=
  .of_flags_eq rfl (fun _ _ => rfl) rfl rfl rfl

theorem pool (h : Stills opened t t') : t'.pool = t.pool := by rw [h.sched]

theorem running (h : Stills opened t t') : t'.running = t.running := by rw [h.sched]

theorem stat (h : Stills opened t t') : t'.stat = t.stat := by rw [h.sched]

theorem resumable (h : Stills opened t t') (c : CoroId) : t'.resumable c = t.resumable c := by
  unfold State.resumable
  rw [h.stat]

theorem ownerLive (h : Stills opened t t') : t'.OwnerLive cur ↔ t.OwnerLive cur := by
  unfold Sched.OwnerLive
  rw [h.pool]

theorem chk_wait (h : Stills opened t t') (w : FlagWord) (c : CoroId) :
    t'.chk w c coroEvetWait = t.chk w c coroEvetWait := by
  have hkeep : ~~~coroEvetChld &&& coroEvetWait = coroEvetWait := by decide
  unfold State.chk
  rcases h.flags c with hsame | ⟨-, hclear⟩
  · rw [hsame]
  · rw [hclear, hasBit_and, hkeep]

theorem waiting (h : Stills opened t t') (c : CoroId) : t'.waiting c = t.waiting c :=
  congrArg₂ or (h.chk_wait .evet c) (h.chk_wait .msg c)

theorem chk_chld (h : Stills opened t t') {w : FlagWord} (hchk : t'.chk w c coroEvetChld = true) :
    t.chk w c coroEvetChld = true := by
  have hclear' : ~~~coroEvetChld &&& coroEvetChld = 0 := by decide
  unfold State.chk at hchk ⊢
  rcases h.flags c with hsame | ⟨-, hclear⟩
  · rwa [hsame] at hchk
  · rw [hclear, hasBit_and, hclear', hasBit_zero] at hchk
    cases hchk

theorem notified (h : Stills opened t t') (hyes : t'.notified c = true) : t.notified c = true := by
  obtain ⟨w, hw⟩ := notified_iff.mp hyes
  exact notified_iff.mpr ⟨w, h.chk_chld hw⟩

theorem not_notified (h : Stills opened t t') (hno : t.notified c = false) :
    t'.notified c = false := by
  cases hyes : t'.notified c with
  | false => rfl
  | true => exact (h.notified hyes).symm.trans hno

/-- A CHLD flag that is gone was cleared for a coroutine of `opened`. -/
theorem opened_of (h : Stills opened t t') (hyes : t.notified c = true)
    (hno : t'.notified c = false) : opened c := by
  rcases h.flags c with hsame | ⟨hopened, -⟩
  · have hkept : t'.notified c = t.notified c := by
      unfold State.notified State.chk
      rw [hsame, hsame]
    rw [hkept, hyes] at hno
    cases hno
  · exact hopened

theorem blocked (h : Stills opened t t') : t'.Blocked c ↔ t.Blocked c := by
  unfold State.Blocked
  rw [h.pool, h.stat, h.resumable, h.waiting]

theorem mono (h : Stills opened t t') (himp : ∀ c, opened c → opened' c) :
    Stills opened' t t' :=
  ⟨h.sched, h.stack, h.messages, h.reactor, fun c => (h.flags c).imp_right fun ho =>
    ⟨himp c ho.1, ho.2⟩⟩

theorem trans (h : Stills opened t u) (h' : Stills opened u t') : Stills opened t t' where
  sched := by rw [h'.sched, h.sched]
  stack := fun x hx => (h'.stack x (by rwa [h.running])).trans (h.stack x hx)
  messages := h'.messages.trans h.messages
  reactor := h'.reactor.trans h.reactor
  flags := fun c => by
    rcases h.flags c with hsame | ⟨hopened, hclear⟩
    · rcases h'.flags c with hsame' | ⟨hopened', hclear'⟩
      · exact .inl fun w => (hsame' w).trans (hsame w)
      · exact .inr ⟨hopened', fun w => by rw [hclear', hsame]⟩
    · rcases h'.flags c with hsame' | ⟨_, hclear'⟩
      · exact .inr ⟨hopened, fun w => (hsame' w).trans (hclear w)⟩
      · exact .inr ⟨hopened, fun w => by rw [hclear', hclear, BitVec.and_assoc, BitVec.and_self]⟩

/-- What is reached in the later state is reached in the earlier one. -/
theorem reached (h : Stills opened t t') (hl : ∀ c ∈ l', t.Reached l c)
    (hchilds : ∀ c, t'.notified c = true → t'.coroChilds (some c) = t.coroChilds (some c))
    (hd : t'.Reached l' d) : t.Reached l d := by
  induction hd with
  | child hc => exact hl _ hc
  | @nested c d hc hready hnotified hd ih =>
      rw [h.resumable] at hready
      rw [hchilds c hnotified] at hd
      exact .nested ih hready (h.notified hnotified) hd

end Stills

theorem dropChld_flags (hrun : t.running = some p) (c : CoroId) (w : FlagWord) :
    (t.dropChld (some c)).flags w c = t.flags w c &&& ~~~coroEvetChld := by
  have hword : coroMesgChld = coroEvetChld := rfl
  simp only [State.dropChld, hrun, State.setFlags_flags, and_true]
  cases w <;> simp [hword]

theorem stills_dropChld (hrun : t.running = some p) (c : CoroId) :
    Stills (fun d => d = c) t (t.dropChld (some c)) := by
  refine ⟨by rw [dropChld_toSched], fun _ _ => by rw [dropChld_toSched], ?_, ?_, fun d => ?_⟩
  · simp only [State.dropChld, hrun]
    rfl
  · simp only [State.dropChld, hrun]
    rfl
  · by_cases hd : d = c
    · exact .inr ⟨hd, fun w => hd ▸ dropChld_flags hrun c w⟩
    · refine .inl fun w => ?_
      simp only [State.dropChld, hrun, State.setFlags_flags, hd, and_false, if_false]

theorem notified_dropChld (hrun : t.running = some p) (c : CoroId) :
    (t.dropChld (some c)).notified c = false := by
  have hclear : ∀ v : StatT, hasBit (v &&& ~~~coroEvetChld) coroEvetChld = false := by
    intro v
    rw [hasBit_and, show ~~~coroEvetChld &&& coroEvetChld = 0 by decide, hasBit_zero]
  refine Bool.eq_false_iff.mpr fun hyes => ?_
  obtain ⟨w, hw⟩ := notified_iff.mp hyes
  rw [State.chk, dropChld_flags hrun, hclear] at hw
  cases hw

/-! ## What a pass comes to -/

/-- A `resume` of `c` did no more than clear its CHLD flags. -/
def Skipped (t t' : State) (c : CoroId) : Prop :=
  t.Blocked c ∧ (t.resumable c = true → t'.notified c = false)

/-- The coroutines `l`, and all that is reached from them, were skipped. -/
structure Passed (t t' : State) (l : List CoroId) : Prop where
  run : ∃ tr, Run State.step Passing t tr t' ∧ ∀ o ∈ tr, o.ofLoop = true
  stills : Stills (fun c => t.Reached l c ∧ t.resumable c = true) t t'
  skipped : ∀ c ∈ l, Skipped t t' c
  opened : ∀ o, t.notified o = true → t'.notified o = false →
    ∀ c ∈ t.coroChilds (some o), Skipped t t' c

/-- A coroutine reached from `l` is resumed or destroyed, or the attempt fails. -/
def Breaks (t : State) (l : List CoroId) : Prop :=
  ∃ tr u d, Run State.step Passing t tr u ∧ Passing u .lib ∧ t.Reached l d ∧ ¬ t.Blocked d ∧
    ∀ u' evs, u.step .lib = some (.ok (u', evs)) → .transferred d ∈ evs ∨ .destroyed d ∈ evs

theorem State.Reached.mono (hsub : ∀ c ∈ l', c ∈ l) (h : t.Reached l' d) : t.Reached l d := by
  induction h with
  | child hc => exact .child (hsub _ hc)
  | nested _ hready hnotified hd ih => exact .nested ih hready hnotified hd

namespace Passed

variable {u : State}

/-- A step that changes no flags. -/
theorem of_step (hpassing : Passing t .lib) (hstep : t.step .lib = some (.ok (t', evs)))
    (hevs : ∀ o ∈ evs, o.ofLoop = true) (hstills : Stills (fun _ => False) t t') :
    Passed t t' [] where
  run := ⟨evs, .single hpassing hstep, hevs⟩
  stills := hstills.mono fun _ h => h.elim
  skipped := fun _ h => nomatch h
  opened := fun _ hyes hno => (hstills.opened_of hyes hno).elim

theorem cons (h : Passed t t' l) (hc : Skipped t t' c) : Passed t t' (c :: l) where
  run := h.run
  stills := h.stills.mono fun _ hd =>
    ⟨hd.1.mono fun _ h => List.mem_cons_of_mem _ h, hd.2⟩
  skipped := List.forall_mem_cons.mpr ⟨hc, h.skipped⟩
  opened := h.opened

theorem trans (h : Passed t u l) (h' : Passed u t' l')
    (hchilds : ∀ c, u.notified c = true → u.coroChilds (some c) = t.coroChilds (some c)) :
    Passed t t' (l ++ l') := by
  obtain ⟨tr, hrun, hevs⟩ := h.run
  obtain ⟨tr', hrun', hevs'⟩ := h'.run
  have hreached : ∀ d, u.Reached l' d → t.Reached (l ++ l') d := fun d hd =>
    h.stills.reached (fun c hc => .child (List.mem_append_right l hc)) hchilds hd
  have hfirst : ∀ c, Skipped t u c → Skipped t t' c := fun c hc =>
    ⟨hc.1, fun hready => h'.stills.not_notified (hc.2 hready)⟩
  have hsecond : ∀ c, Skipped u t' c → Skipped t t' c := fun c hc =>
    ⟨h.stills.blocked.mp hc.1, fun hready => hc.2 (by rwa [h.stills.resumable])⟩
  refine ⟨⟨_, hrun.trans hrun', fun o ho => ?_⟩, ?_, fun c hc => ?_, fun o hyes hno c hc => ?_⟩
  · exact (List.mem_append.mp ho).elim (hevs o) (hevs' o)
  · refine (h.stills.mono fun d hd => ?_).trans (h'.stills.mono fun d hd => ?_)
    · exact ⟨hd.1.mono fun _ h => List.mem_append_left l' h, hd.2⟩
    · exact ⟨hreached d hd.1, by rw [← h.stills.resumable]; exact hd.2⟩
  · exact (List.mem_append.mp hc).elim (fun hc => hfirst c (h.skipped c hc))
      fun hc => hsecond c (h'.skipped c hc)
  · cases hmid : u.notified o with
    | false => exact hfirst c (h.opened o hyes hmid c hc)
    | true => exact hsecond c (h'.opened o hmid hno c (by rwa [hchilds o hmid]))

/-- The `resume` of `c` first passes over its children. -/
theorem nested (hpassing : Passing t .lib) (hstep : t.step .lib = some (.ok (u, evs)))
    (hevs : ∀ o ∈ evs, o.ofLoop = true) (hstills : Stills (fun d => d = c) t u)
    (hno : u.notified c = false) (hchilds : u.coroChilds = t.coroChilds)
    (hblocked : t.Blocked c) (hready : t.resumable c = true) (hyes : t.notified c = true)
    (h : Passed u t' (t.coroChilds (some c))) : Passed t t' [c] := by
  obtain ⟨tr, hrun, htr⟩ := h.run
  have hself : t.Reached [c] c := .child List.mem_cons_self
  have hreached : ∀ d, u.Reached (t.coroChilds (some c)) d → t.Reached [c] d := fun d hd =>
    hstills.reached (fun e he => .nested hself hready hyes he)
      (fun e _ => by rw [hchilds]) hd
  have hskipped : ∀ d, Skipped u t' d → Skipped t t' d := fun d hd =>
    ⟨hstills.blocked.mp hd.1, fun hr => hd.2 (by rwa [hstills.resumable])⟩
  refine ⟨⟨_, (Run.single hpassing hstep).trans hrun, fun o ho => ?_⟩, ?_, fun d hd => ?_,
    fun o hyes' hno' d hd => ?_⟩
  · exact (List.mem_append.mp ho).elim (hevs o) (htr o)
  · refine (hstills.mono fun d hd => ?_).trans (h.stills.mono fun d hd => ?_)
    · rw [hd]
      exact ⟨hself, hready⟩
    · exact ⟨hreached d hd.1, by rw [← hstills.resumable]; exact hd.2⟩
  · rw [List.mem_singleton.mp hd]
    exact ⟨hblocked, fun _ => h.stills.not_notified hno⟩
  · by_cases ho : o = c
    · subst ho
      exact hskipped d (h.skipped d hd)
    · have hmid : u.notified o = true := by
        by_contra hmid
        exact ho (hstills.opened_of hyes' (Bool.eq_false_iff.mpr hmid))
      exact hskipped d (h.opened o hmid hno' d (by rwa [hchilds]))

/-- All that is reached from `l` is blocked. -/
theorem reached (h : Passed t t' l) (hd : t.Reached l d) : Skipped t t' d := by
  induction hd with
  | child hc => exact h.skipped _ hc
  | nested _ hready hyes hd ih => exact h.opened _ hyes (ih.2 hready) _ hd

end Passed

theorem Breaks.after {u : State} {opened : CoroId → Prop} (h : Breaks u l')
    (hrun : Run State.step Passing t tr u) (hstills : Stills opened t u)
    (hreached : ∀ d, u.Reached l' d → t.Reached l d) : Breaks t l := by
  obtain ⟨tr', v, d, hrun', hpassing, hd, hfree, hbreak⟩ := h
  exact ⟨_, v, d, hrun.trans hrun', hpassing, hreached d hd,
    fun hblocked => hfree (hstills.blocked.mpr hblocked), hbreak⟩

theorem Passed.breaks {u : State} (h : Passed t u l) (h' : Breaks u l')
    (hchilds : ∀ c, u.notified c = true → u.coroChilds (some c) = t.coroChilds (some c)) :
    Breaks t (l ++ l') := by
  obtain ⟨tr, hrun, -⟩ := h.run
  exact h'.after hrun h.stills fun d hd =>
    h.stills.reached (fun c hc => .child (List.mem_append_right l hc)) hchilds hd

theorem passing (hrun : t.running = some p) {f : Frame} (htop : t.stack (some p) = f :: rest)
    (hf : f.isPass = true) : Passing t .lib := ⟨rfl, f, rest, by rw [hrun, htop], hf⟩

/-- The frames of the running context are replaced, with nothing else. -/
theorem Passed.of_setStack {fs : List Frame} (hrun : t.running = some p) {f : Frame}
    (htop : t.stack (some p) = f :: rest) (hf : f.isPass = true)
    (hstep : t.step .lib = some (.ok (t.setStack fs, evs)))
    (hevs : ∀ o ∈ evs, o.ofLoop = true) :
    Passed t (t.setStack fs) [] ∧ (t.setStack fs).stack (some p) = fs := by
  refine ⟨.of_step (passing hrun htop hf) hstep hevs (.setStack t fs), ?_⟩
  rw [← hrun]
  exact Function.update_self ..

/-- A pass of `p` over the children `front` ends with all of them skipped, or breaks. -/
def PassesOrBreaks (p : CoroId) (t : State) : Prop :=
  ∀ (loop : Nat) (cur : Ctx) (front back : List CoroId) (rest : List Frame),
    t.running = some p → t.resumable p = false →
    t.stack (some p) = .resumeChilds (some p) cur loop none :: rest → t.OwnerLive cur →
    (∀ d, cur = some d → t.notified d = false) → t.coroChilds cur = front ++ back →
    front.length = loop →
    (∃ t', Passed t t' front ∧
      t'.stack (some p) = .resumeChilds (some p) cur 0 none :: rest ∧
      t'.coroChilds = Function.update t.coroChilds cur (back ++ front)) ∨ Breaks t front

/-- The second half of a `resume`. -/
theorem transfer_or_break (hrun : t.running = some p)
    (htop : t.stack (some p) = .resume (some p) c .transfer :: rest) (hlive : c ∈ t.pool)
    (hready : t.resumable c = true) (hc : t.Reached l c) :
    t.waiting c = true ∧ Passed t (t.setStack rest) [] ∧
      (t.setStack rest).stack (some p) = rest ∨ Breaks t l := by
  cases hwait : t.waiting c with
  | true =>
      exact .inl ⟨rfl, Passed.of_setStack hrun htop rfl (step_waiting hrun htop hlive hwait) nofun⟩
  | false =>
      refine .inr ⟨[], t, c, .refl, passing hrun htop rfl, hc, fun hblocked => ?_, ?_⟩
      · rw [hblocked.2.2 hready] at hwait
        cases hwait
      · exact fun _ _ hstep => .inl (step_transfers hrun htop hwait hstep)

/-- The `resume` of a notified child enters the pass over its children. -/
theorem enters_nested (hrun : t.running = some p)
    (htop : t.stack (some p) = .resume (some p) c .entry :: rest) (hlive : c ∈ t.pool)
    (hdone : t.stat c ≠ coroStatDone) (hready : t.resumable c = true)
    (hyes : t.notified c = true) (hother : c ≠ p) :
    ∃ u, t.step .lib = some (.ok (u, [.passBegin (some c)])) ∧ Stills (fun d => d = c) t u ∧
      u.notified c = false ∧ u.coroChilds = t.coroChilds ∧
      u.stack (some p) = .resumeChilds (some p) (some c) (t.coroChilds (some c)).length none ::
        .resume (some p) c .transfer :: rest := by
  have hstep := step_nested hrun htop hlive hdone hready hyes hother
  have hself : (t.setStack (.resume (some p) c .transfer :: rest)).running = some p := hrun
  have hsched := dropChld_toSched (t.setStack (.resume (some p) c .transfer :: rest)) (some c)
  have hstack : (t.setStack (.resume (some p) c .transfer :: rest)).stack (some p) =
      .resume (some p) c .transfer :: rest := by
    rw [← hrun]
    exact Function.update_self ..
  refine ⟨_, hstep, ?_, notified_dropChld hself c, ?_, ?_⟩
  · exact ((Stills.setStack t _).trans (stills_dropChld hself c)).trans (.setStack _ _)
  · show (State.dropChld _ _).coroChilds = t.coroChilds
    rw [hsched]
    rfl
  · show (((State.dropChld _ _).toSched.push _).stack (some p)) = _
    rw [hsched, Sched.push, setStack_stack, if_pos hself.symm, hself, hstack]
    rfl

theorem Stills.countP_notified_lt {opened : CoroId → Prop} (h : Stills opened t t')
    (hlive : c ∈ t.pool) (hyes : t.notified c = true) (hno : t'.notified c = false) :
    t'.pool.countP t'.notified < t.pool.countP t.notified := by
  have hfilter : t.pool.filter t'.notified = (t.pool.filter t.notified).filter t'.notified := by
    rw [List.filter_filter]
    refine List.filter_congr fun d _ => ?_
    cases hd : t'.notified d with
    | false => rfl
    | true => rw [h.notified hd, Bool.and_self]
  rw [h.pool, List.countP_eq_length_filter, List.countP_eq_length_filter, hfilter]
  refine List.length_filter_lt_length_iff_exists.mpr ⟨c, List.mem_filter.mpr ⟨hlive, hyes⟩, ?_⟩
  rw [hno]
  exact Bool.false_ne_true

/-- The `resume` of a child. -/
theorem resume_or_break (hnest : ∀ u : State,
      u.pool.countP u.notified < t.pool.countP t.notified → PassesOrBreaks p u)
    (hrun : t.running = some p) (hself : t.resumable p = false)
    (htop : t.stack (some p) = .resume (some p) c .entry :: rest) (hlive : c ∈ t.pool)
    (hdone : t.stat c ≠ coroStatDone) :
    (∃ t', Passed t t' [c] ∧ t'.stack (some p) = rest ∧ t'.coroChilds = t.coroChilds) ∨
      Breaks t [c] := by
  have hchild : t.Reached [c] c := .child List.mem_cons_self
  cases hready : t.resumable c with
  | false =>
      obtain ⟨hpassed, hstack⟩ := Passed.of_setStack hrun htop rfl
        (step_idle hrun htop hlive hdone hready) nofun
      have hidle : t.resumable c = true → False := by rw [hready]; exact Bool.false_ne_true
      exact .inl ⟨_, hpassed.cons
        ⟨⟨hlive, hdone, fun h => (hidle h).elim⟩, fun h => (hidle h).elim⟩, hstack, rfl⟩
  | true =>
      cases hyes : t.notified c with
      | false =>
          obtain ⟨hpassed, hstack⟩ := Passed.of_setStack hrun htop rfl
            (step_straight hrun htop hlive hdone hready hyes) nofun
          rcases transfer_or_break (t := t.setStack _) (l := [c]) hrun hstack hlive hready
            (.child List.mem_cons_self) with ⟨hwait, hpassed', hstack'⟩ | hbreaks
          · refine .inl ⟨_, (hpassed.trans hpassed' fun _ _ => rfl).cons
              ⟨⟨hlive, hdone, fun _ => hwait⟩, fun _ => hyes⟩, hstack', rfl⟩
          · exact .inr (hpassed.breaks hbreaks fun _ _ => rfl)
      | true =>
          have hcp : c ≠ p := by
            rintro rfl
            rw [hself] at hready
            cases hready
          have hblocked : t.waiting c = true → t.Blocked c := fun h => ⟨hlive, hdone, fun _ => h⟩
          obtain ⟨u, hstep, hstills, hno, hchilds, hstack⟩ :=
            enters_nested hrun htop hlive hdone hready hyes hcp
          have hpassing := passing hrun htop rfl
          have hevs : ∀ o ∈ [Obs.passBegin (some c)], o.ofLoop = true := by simp [Obs.ofLoop]
          have hrun' : u.running = some p := hstills.running.trans hrun
          have hreached : ∀ d, u.Reached (t.coroChilds (some c)) d → t.Reached [c] d := fun d hd =>
            hstills.reached (fun e he => .nested hchild hready hyes he)
              (fun e _ => by rw [hchilds]) hd
          have hpass := hnest u (hstills.countP_notified_lt hlive hyes hno) _ (some c)
            (t.coroChilds (some c)) [] _ hrun' (by rwa [hstills.resumable]) hstack
            (hstills.ownerLive.mpr fun d hd => Option.some.inj hd ▸ hlive)
            (fun d hd => Option.some.inj hd ▸ hno) (by rw [hchilds, List.append_nil]) rfl
          rcases hpass with ⟨v, hpassed, hstack', hlists⟩ | hbreaks
          · have hrun'' : v.running = some p := hpassed.stills.running.trans hrun'
            have hsame : v.coroChilds = t.coroChilds := by
              rw [hlists, hchilds, List.nil_append, Function.update_eq_self]
            obtain ⟨hend, htop'⟩ := Passed.of_setStack hrun'' hstack' rfl
              (step_passEnd hrun'' hstack') (by simp [Obs.ofLoop])
            have hkept : ∀ d, v.coroChilds (some d) = u.coroChilds (some d) := fun d => by
              rw [hsame, hchilds]
            have hpassed := hpassed.trans hend fun d _ => hkept d
            rw [List.append_nil] at hpassed
            have hall : Stills (fun _ => True) t
                (v.setStack (.resume (some p) c .transfer :: rest)) :=
              (hstills.mono fun _ _ => trivial).trans (hpassed.stills.mono fun _ _ => trivial)
            have hlive' : c ∈ (v.setStack (.resume (some p) c .transfer :: rest)).pool := by
              rwa [hall.pool]
            have hready' := (hall.resumable c).trans hready
            rcases transfer_or_break (l := [c]) (by exact hrun'') htop' hlive' hready'
              (.child List.mem_cons_self) with ⟨hwait, hskip, hrest⟩ | hbreaks
            · have hwait := (hall.waiting c).symm.trans hwait
              have hpassed := hpassed.trans hskip fun d _ => hkept d
              rw [List.append_nil] at hpassed
              exact .inl ⟨_, hpassed.nested hpassing hstep hevs hstills hno hchilds (hblocked hwait)
                hready hyes, hrest, hsame⟩
            · obtain ⟨tr, hrun₁, -⟩ := hpassed.run
              refine .inr (hbreaks.after ((Run.single hpassing hstep).trans hrun₁) hall
                fun d hd => ?_)
              exact hall.reached (fun e he => .child he)
                (fun e _ => (hkept e).trans (by rw [hchilds])) hd
          · exact .inr (hbreaks.after (.single hpassing hstep) hstills hreached)

theorem Breaks.mono (h : Breaks t l') (hsub : ∀ c ∈ l', c ∈ l) : Breaks t l := by
  obtain ⟨tr, u, d, hrun, hpassing, hd, hrest⟩ := h
  exact ⟨tr, u, d, hrun, hpassing, hd.mono hsub, hrest⟩

theorem Passed.refl (t : State) : Passed t t [] where
  run := ⟨[], .refl, nofun⟩
  stills := .of_flags_eq rfl (fun _ _ => rfl) rfl rfl rfl
  skipped := nofun
  opened := fun _ hyes hno => by
    rw [hyes] at hno
    cases hno

/-- The list of `cur` is that of nobody with a CHLD flag. -/
theorem childs_of_notified (hcur : ∀ d, cur = some d → t.notified d = false) (l : List CoroId)
    (hyes : t.notified d = true) :
    Function.update t.coroChilds cur l (some d) = t.coroChilds (some d) := by
  refine Function.update_of_ne (fun h => ?_) ..
  rw [hcur d h.symm] at hyes
  cases hyes

/-- One turn. -/
theorem turn_or_break (hnest : ∀ u : State,
      u.pool.countP u.notified < t.pool.countP t.notified → PassesOrBreaks p u)
    (hrun : t.running = some p) (hself : t.resumable p = false)
    (htop : t.stack (some p) = .resumeChilds (some p) cur (loop + 1) none :: rest)
    (howner : t.OwnerLive cur) (hcur : ∀ d, cur = some d → t.notified d = false)
    (hlist : t.coroChilds cur = c :: l) :
    (∃ t', Passed t t' [c] ∧ t'.stack (some p) = .resumeChilds (some p) cur loop none :: rest ∧
      t'.coroChilds = Function.update t.coroChilds cur (l ++ [c])) ∨ Breaks t [c] := by
  by_cases hgone : c ∉ t.pool ∨ t.stat c = coroStatDone
  · refine .inr ⟨[], t, c, .refl, passing hrun htop rfl, .child List.mem_cons_self,
      fun hblocked => ?_, fun _ _ hstep => .inr (step_destroys hrun htop hlist hgone hstep)⟩
    exact hgone.elim (fun h => h hblocked.1) fun h => hblocked.2.1 h
  · obtain ⟨hlive, hdone⟩ := not_or.mp hgone
    have hlive := not_not.mp hlive
    have hheld := Passed.of_step (passing hrun htop rfl)
      (step_hold hrun htop howner hlist hlive hdone) nofun
      ((Stills.setChilds t cur l).trans (.setStack _ _))
    have htop' : ((t.setChilds cur l).setStack (.resume (some p) c .entry ::
        .resumeChilds (some p) cur loop (some c) :: rest)).stack (some p) =
        .resume (some p) c .entry :: .resumeChilds (some p) cur loop (some c) :: rest := by
      rw [← hrun]
      exact Function.update_self ..
    rcases resume_or_break (t := (t.setChilds cur l).setStack _) hnest hrun hself htop' hlive
      hdone with
      ⟨b, hskip, hback, hlists⟩ | hbreaks
    · have hpassed := hheld.trans hskip fun d hd => childs_of_notified hcur l hd
      have hrun' : b.running = some p := hpassed.stills.running.trans hrun
      have hkeep := step_keep hrun' hback (hpassed.stills.ownerLive.mpr howner)
        (by rwa [hpassed.stills.pool]) (by rwa [hpassed.stills.stat])
      have hput := Passed.of_step (passing hrun' hback rfl) hkeep nofun
        ((Stills.setChilds b cur (b.coroChilds cur ++ [c])).trans (.setStack _ _))
      have hlists : b.coroChilds = Function.update t.coroChilds cur l := hlists
      have hchilds : Function.update b.coroChilds cur (b.coroChilds cur ++ [c]) =
          Function.update t.coroChilds cur (l ++ [c]) := by
        rw [hlists, Function.update_idem, Function.update_self]
      refine .inl ⟨_, hpassed.trans hput fun d hd => ?_, ?_, hchilds⟩
      · rw [hlists]
        exact childs_of_notified hcur l (hpassed.stills.notified hd)
      · rw [← hrun']
        exact Function.update_self ..
    · exact .inr (hheld.breaks hbreaks fun d hd => childs_of_notified hcur l hd)

theorem turns_or_break {m : Nat}
    (hnest : ∀ u : State, u.pool.countP u.notified < m → PassesOrBreaks p u)
    (hle : t.pool.countP t.notified ≤ m) : PassesOrBreaks p t := by
  intro loop
  induction loop generalizing t with
  | zero =>
      intro cur front back rest hrun hself htop howner hcur hlist hlen
      obtain rfl := List.eq_nil_of_length_eq_zero hlen
      refine .inl ⟨t, .refl t, htop, ?_⟩
      rw [List.append_nil, ← List.nil_append back, ← hlist, Function.update_eq_self]
  | succ loop ih =>
      intro cur front back rest hrun hself htop howner hcur hlist hlen
      obtain ⟨c, front, rfl⟩ := List.exists_cons_of_length_eq_add_one hlen
      have hsub : ∀ d ∈ [c], d ∈ c :: front := fun d hd =>
        List.mem_singleton.mp hd ▸ List.mem_cons_self
      rcases turn_or_break (fun u hu => hnest u (Nat.lt_of_lt_of_le hu hle)) hrun hself htop howner
        hcur hlist with ⟨t₁, hturn, htop₁, hlists₁⟩ | hbreaks
      · have hstills := hturn.stills
        have hcur₁ : ∀ d, cur = some d → t₁.notified d = false := fun d h =>
          hstills.not_notified (hcur d h)
        have hchilds : ∀ d, t₁.notified d = true → t₁.coroChilds (some d) = t.coroChilds (some d) :=
          fun d hd => by
            rw [hlists₁]
            exact childs_of_notified hcur _ (hstills.notified hd)
        have hle₁ : t₁.pool.countP t₁.notified ≤ m := by
          rw [hstills.pool]
          exact Nat.le_trans (List.countP_mono_left fun d _ hd => hstills.notified hd) hle
        have hlist₁ : t₁.coroChilds cur = front ++ (back ++ [c]) := by
          rw [hlists₁, Function.update_self]
          exact List.append_assoc ..
        rcases ih hle₁ cur front (back ++ [c]) rest (hstills.running.trans hrun)
          ((hstills.resumable p).trans hself) htop₁ (hstills.ownerLive.mpr howner) hcur₁ hlist₁
          (Nat.succ.inj hlen) with ⟨t', hrest, htop', hlists'⟩ | hbreaks
        · refine .inl ⟨t', hturn.trans hrest hchilds, htop', ?_⟩
          rw [hlists', hlists₁, Function.update_idem, List.append_assoc]
          rfl
        · exact .inr (hturn.breaks hbreaks hchilds)
      · exact .inr (hbreaks.mono hsub)

theorem passes_or_breaks (p : CoroId) (t : State) : PassesOrBreaks p t := by
  have hall : ∀ m, ∀ u : State, u.pool.countP u.notified < m → PassesOrBreaks p u := by
    intro m
    induction m with
    | zero => exact fun u hu => absurd hu (Nat.not_lt_zero _)
    | succ m ih => exact fun u hu => turns_or_break ih (Nat.le_of_lt_succ hu)
  exact hall _ t (Nat.lt_succ_self _)

/-! ## Iterations -/

/-- `execute` enters the pass over its children. -/
theorem SchedInv.enters_drain (hinv : SchedInv s.toSched) (hhead : s.AtDrain p)
    (hchilds : s.coroChilds (some p) ≠ []) :
    ∃ u, s.step .lib = some (.ok (u, [.passBegin (some p)])) ∧ Stills (fun d => d = p) s u ∧
      u.notified p = false ∧ u.coroChilds = s.coroChilds ∧
      u.stack (some p) = .resumeChilds (some p) (some p) (s.coroChilds (some p)).length none ::
        [.execute p .childs] := by
  obtain ⟨hrun, hstack⟩ := hhead
  have hlive := hinv.live p hrun
  have htop : s.stack s.running = [.execute p .childs] := by rw [hrun, hstack]
  have hcheck : s.checkLive p = .ok () := if_pos hlive
  have henter := callResumeChildsOf_eq none hrun hlive nofun
  have hsched := dropChld_toSched s (some p)
  have hstep : s.step .lib = some (.ok ((s.dropChld (some p)).enterPass (some p) (some p))) := by
    rw [State.step_lib_eq htop nofun, State.stepFrame, State.executeChilds, hcheck,
      Fallible.ok_bind, if_neg hchilds, henter]
    rfl
  refine ⟨_, hstep, (stills_dropChld hrun p).trans (.setStack _ _),
    notified_dropChld hrun p, ?_, ?_⟩
  · show (State.dropChld _ _).coroChilds = s.coroChilds
    rw [hsched]
  · show ((State.dropChld _ _).toSched.push _).stack (some p) = _
    rw [hsched, Sched.push, setStack_stack, if_pos hrun.symm, hrun, hstack]

/-- An iteration in which nobody ran. -/
structure Spins (p : CoroId) (s s' : State) : Prop where
  iteration : ∃ tr, Iteration p s tr s' ∧ ∀ o ∈ tr, o.ofLoop = true
  stills : Stills (fun c => c = p ∨ s.Reached (s.coroChilds (some p)) c ∧ s.resumable c = true) s s'
  childs : s'.coroChilds = s.coroChilds
  self : s'.notified p = false
  skipped : ∀ d, s.Reached (s.coroChilds (some p)) d → Skipped s s' d

/-- The next iteration skips all coroutines that it reaches, or runs or destroys one. -/
theorem SchedInv.spins_or_runs (hinv : SchedInv s.toSched) (hhead : s.AtDrain p)
    (hchilds : s.coroChilds (some p) ≠ []) :
    (∃ s', Spins p s s') ∨ ∃ d, s.Reached (s.coroChilds (some p)) d ∧ ¬ s.Blocked d ∧
      ∀ tr s', Iteration p s tr s' → .transferred d ∈ tr ∨ .destroyed d ∈ tr := by
  have hself : s.resumable p = false := by
    unfold State.resumable
    rw [(hinv.busy p (hinv.live p hhead.1)).mpr hhead.1]
    decide
  obtain ⟨u, hstep, hstills, hno, hsame, hstack⟩ := hinv.enters_drain hhead hchilds
  have hrun : u.running = some p := hstills.running.trans hhead.1
  have hreached : ∀ d, u.Reached (s.coroChilds (some p)) d → s.Reached (s.coroChilds (some p)) d :=
    fun d hd => hstills.reached (fun c hc => .child hc) (fun c _ => by rw [hsame]) hd
  rcases passes_or_breaks p u _ (some p) (s.coroChilds (some p)) [] _ hrun
    ((hstills.resumable p).trans hself) hstack
    (hstills.ownerLive.mpr fun d hd => hinv.live d (hhead.1.trans hd))
    (fun d hd => Option.some.inj hd ▸ hno) (by rw [hsame, List.append_nil]) rfl with
    ⟨v, hpassed, hstack', hlists⟩ | ⟨tr, v, d, hbreak, hpassing, hd, hfree, hruns⟩
  · have hsame' : v.coroChilds = s.coroChilds := by
      rw [hlists, hsame, List.nil_append, Function.update_eq_self]
    have hrun' : v.running = some p := hpassed.stills.running.trans hrun
    obtain ⟨hend, htop⟩ := Passed.of_setStack hrun' hstack' rfl (step_passEnd hrun' hstack')
      (by simp [Obs.ofLoop])
    have hpassed := hpassed.trans hend fun d _ => by rw [hsame', hsame]
    rw [List.append_nil] at hpassed
    obtain ⟨tr, hrun₁, htr⟩ := hpassed.run
    -- the CHLD flag of `p` led nowhere, as `p` is not resumable
    have hforth : ∀ d, s.Reached (s.coroChilds (some p)) d →
        u.Reached (s.coroChilds (some p)) d := by
      intro d hd
      induction hd with
      | child hc => exact .child hc
      | @nested c d _ hready hyes hd ih =>
          refine .nested ih ((hstills.resumable c).trans hready) ?_ (by rwa [hsame])
          by_contra hlost
          obtain rfl := hstills.opened_of hyes (Bool.eq_false_iff.mpr hlost)
          rw [hself] at hready
          cases hready
    refine .inl ⟨_, ⟨_, .intro hstep (hrun₁.mono fun _ _ hp hhead => hp.not_atDrain hhead)
      ⟨hrun', htop⟩, ?_⟩, ?_, hsame', hpassed.stills.not_notified hno, fun d hd => ?_⟩
    · intro o ho
      rcases List.mem_append.mp ho with ho | ho
      · rw [List.mem_singleton.mp ho]
        rfl
      · exact htr o ho
    · exact (hstills.mono fun c hc => .inl hc).trans (hpassed.stills.mono fun c hc =>
        .inr ⟨hreached c hc.1, (hstills.resumable c).symm.trans hc.2⟩)
    · obtain ⟨hblocked, hclear⟩ := hpassed.reached (hforth d hd)
      exact ⟨hstills.blocked.mp hblocked, fun hready => hclear ((hstills.resumable d).trans hready)⟩
  · refine .inr ⟨d, hreached d hd, fun hblocked => hfree (hstills.blocked.mpr hblocked), ?_⟩
    intro tr' s' hiter
    cases hiter with
    | intro hstep' hrun' hhead' =>
        obtain ⟨rfl, rfl⟩ := Prod.mk.inj (Except.ok.inj (Option.some.inj (hstep.symm.trans hstep')))
        obtain ⟨tr₁, rfl, hrest⟩ := hbreak.follows hrun'
          (fun _ _ _ _ _ hpass hst => hpass.only hst)
          fun w a hpass hw => hpass.not_atDrain (hw ▸ hhead')
        rcases hrest.head_cases with ⟨rfl, -⟩ | ⟨a, v', evs, tr₂, -, hst, -, rfl⟩
        · exact (hpassing.not_atDrain hhead').elim
        · obtain rfl := hpassing.only hst
          have hevs := hruns v' evs hst
          simp only [List.mem_append]
          exact hevs.imp (fun h => .inr (.inr (.inl h))) fun h => .inr (.inr (.inl h))

/-! ### For ever -/

theorem and_not_chld {v : StatT} (h : hasBit v coroEvetChld = false) :
    v &&& ~~~coroEvetChld = v := by
  have hzero : v &&& coroEvetChld = 0 := by simpa [hasBit] using h
  calc v &&& ~~~coroEvetChld
      = v &&& coroEvetChld ||| v &&& ~~~coroEvetChld := by rw [hzero]; simp
    _ = v &&& (coroEvetChld ||| ~~~coroEvetChld) := (BitVec.and_or_distrib_left ..).symm
    _ = v := by rw [BitVec.or_not_self, BitVec.and_allOnes]

namespace Spins

/-- When there is no CHLD flag left to clear, the state is the same as before. -/
theorem unchanged (h : Spins p s s') (hhead : s.AtDrain p) (hself : s.notified p = false)
    (hno : ∀ d, s.Reached (s.coroChilds (some p)) d → s.resumable d = true →
      s.notified d = false) : s' = s := by
  have hhead' : s'.AtDrain p := by
    obtain ⟨_, hiter, -⟩ := h.iteration
    cases hiter with
    | intro _ _ hhead' => exact hhead'
  have hstack : s'.stack = s.stack := by
    funext x
    by_cases hx : x = some p
    · rw [hx, hhead.2, hhead'.2]
    · exact h.stills.stack x (by rwa [hhead.1])
  have hsched : s'.toSched = s.toSched := by rw [h.stills.sched, hstack, h.childs]
  have hflags : s'.flags = s.flags := by
    funext w c
    rcases h.stills.flags c with hsame | ⟨hopened, hclear⟩
    · exact hsame w
    · have hc : s.notified c = false := by
        rcases hopened with rfl | ⟨hreached, hready⟩
        · exact hself
        · exact hno c hreached hready
      rw [hclear]
      refine and_not_chld (Bool.eq_false_iff.mpr fun hbit => ?_)
      rw [notified_iff.mpr ⟨w, hbit⟩] at hc
      cases hc
  calc s' = ⟨s'.toSched, s'.flags, s'.coroMessages, s'.reactor⟩ := rfl
    _ = s := by rw [hsched, hflags, h.stills.messages, h.stills.reactor]

/-- An iteration in which nobody ran is repeated for ever, without any change. -/
theorem again (h : Spins p s s') (hinv : SchedInv s.toSched)
    (hchilds : s.coroChilds (some p) ≠ []) : Spins p s' s' := by
  obtain ⟨_, hiter, -⟩ := h.iteration
  cases hiter with
  | intro hstep hrun hhead' =>
      have hinv' : SchedInv s'.toSched := hrun.invariant (I := fun t => SchedInv t.toSched)
        (fun _ _ _ _ hI _ hst => hI.step (hI.effect hst)) (hinv.step (hinv.effect hstep))
      have hback : ∀ d, s'.Reached (s'.coroChilds (some p)) d →
          s.Reached (s.coroChilds (some p)) d := fun d hd =>
        h.stills.reached (fun c hc => .child (by rwa [h.childs] at hc))
          (fun c _ => by rw [h.childs]) hd
      rcases hinv'.spins_or_runs hhead' (by rwa [h.childs]) with ⟨s'', hspins⟩ | ⟨d, hd, hfree, -⟩
      · have hsame := hspins.unchanged hhead' h.self fun d hd hready =>
          (h.skipped d (hback d hd)).2 ((h.stills.resumable d).symm.trans hready)
        rwa [hsame] at hspins
      · exact (hfree (h.stills.blocked.mpr (h.skipped d (hback d hd)).1)).elim

end Spins

/-- The next iteration of a finished coroutine runs or destroys a coroutine that it
reaches, or hands control back, exactly if not all that it reaches are blocked. -/
theorem drain_runs_iff {tr₀ : List Obs} (h : RunOf AnyUse tr₀ s) (hhead : s.AtDrain p)
    (hchilds : s.coroChilds (some p) ≠ []) :
    (∀ tr s', Iteration p s tr s' →
      (∃ c, s.Reached (s.coroChilds (some p)) c ∧ (.transferred c ∈ tr ∨ .destroyed c ∈ tr)) ∨
        ∃ q, .handedBack q ∈ tr) ↔
    ∃ c, s.Reached (s.coroChilds (some p)) c ∧ ¬ s.Blocked c := by
  constructor
  · intro hruns
    rcases h.schedInv.spins_or_runs hhead hchilds with ⟨s', hspins⟩ | ⟨d, hd, hfree, -⟩
    · obtain ⟨tr, hiter, htr⟩ := hspins.iteration
      rcases hruns tr s' hiter with ⟨c, -, hc | hc⟩ | ⟨q, hq⟩
      · cases htr _ hc
      · cases htr _ hc
      · cases htr _ hq
    · exact ⟨d, hd, hfree⟩
  · rintro ⟨c, hc, hfree⟩ tr s' hiter
    rcases h.schedInv.spins_or_runs hhead hchilds with ⟨s₁, hspins⟩ | ⟨d, hd, -, hruns⟩
    · exact (hfree (hspins.skipped c hc).1).elim
    · exact .inl ⟨d, hd, hruns tr s' hiter⟩

/-- Coroutine 0 has finished, with the child 1 not yet resumed. -/
def finishesFirst : List Act :=
  [.user (.create 0 0), .user (.create 1 0), .user (.resume (some 0)), .lib, .lib, .lib,
    .user (.child 1), .user .return]

theorem drain_runs_iff_child : ∃ tr₀ s, RunOf AnyUse tr₀ s ∧ s.AtDrain 0 ∧
    ∀ tr s', Iteration 0 s tr s' →
      (∃ c, s.Reached (s.coroChilds (some 0)) c ∧ (.transferred c ∈ tr ∨ .destroyed c ∈ tr)) ∨
        ∃ q, .handedBack q ∈ tr := by
  have hrun : RunOf AnyUse _ (Transition.after State.step AnyUse State.init finishesFirst).1 :=
    Transition.run_after (by decide +kernel)
  have hhead : (Transition.after State.step AnyUse State.init finishesFirst).1.AtDrain 0 := by
    decide +kernel
  have hmem : 1 ∈ (Transition.after State.step AnyUse State.init finishesFirst).1.coroChilds
      (some 0) := by decide +kernel
  refine ⟨_, _, hrun, hhead, (drain_runs_iff hrun hhead (List.ne_nil_of_mem hmem)).mpr
    ⟨1, .child hmem, fun hblocked => ?_⟩⟩
  exact absurd (hblocked.2.2 (by decide +kernel)) (by decide +kernel)

/-- Coroutine 0 has finished, and its child 1 waits for a message. -/
def finishesWaited : List Act :=
  [.user (.create 0 0), .user (.create 1 0), .user (.resume (some 0)), .lib, .lib, .lib,
    .user (.child 1), .user (.resume (some 1)), .lib, .lib, .lib, .user (.mget true),
    .lib, .lib, .lib, .lib, .user .return]

/-- Nobody runs in the next iteration, and it leads back to the same state. -/
theorem drain_spins : ∃ tr₀ s tr, RunOf AnyUse tr₀ s ∧ s.AtDrain 0 ∧
    s.coroChilds (some 0) = [1] ∧ Iteration 0 s tr s ∧
    (∀ c, .transferred c ∉ tr ∧ .destroyed c ∉ tr) ∧ ∀ q, .handedBack q ∉ tr := by
  have hrun : RunOf AnyUse _ (Transition.after State.step AnyUse State.init finishesWaited).1 :=
    Transition.run_after (by decide +kernel)
  have hhead : (Transition.after State.step AnyUse State.init finishesWaited).1.AtDrain 0 := by
    decide +kernel
  have hchilds : (Transition.after State.step AnyUse State.init finishesWaited).1.coroChilds
      (some 0) = [1] := by decide +kernel
  have hflags :
      (Transition.after State.step AnyUse State.init finishesWaited).1.notified 0 = false ∧
      (Transition.after State.step AnyUse State.init finishesWaited).1.notified 1 = false := by
    decide +kernel
  have hblocked : (Transition.after State.step AnyUse State.init finishesWaited).1.Blocked 1 := by
    unfold State.Blocked
    decide +kernel
  generalize (Transition.after State.step AnyUse State.init finishesWaited).1 = s at *
  have hreached : ∀ d, s.Reached (s.coroChilds (some 0)) d → d = 1 := by
    intro d hd
    induction hd with
    | child hc =>
        rw [hchilds] at hc
        exact List.mem_singleton.mp hc
    | nested _ _ hyes _ ih =>
        rw [ih, hflags.2] at hyes
        cases hyes
  rcases hrun.schedInv.spins_or_runs hhead (by rw [hchilds]; decide) with
    ⟨s', hspins⟩ | ⟨d, hd, hfree, -⟩
  · obtain rfl := hspins.unchanged hhead hflags.1 fun d hd _ => by rw [hreached d hd, hflags.2]
    obtain ⟨tr, hiter, htr⟩ := hspins.iteration
    refine ⟨_, _, tr, hrun, hhead, hchilds, hiter,
      fun c => ⟨fun h => ?_, fun h => ?_⟩, fun q h => ?_⟩
    · cases htr _ h
    · cases htr _ h
    · cases htr _ h
  · rw [hreached d hd] at hfree
    exact (hfree hblocked).elim

end BoostCoro.Coroutine
