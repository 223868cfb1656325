import BoostCoro.Coroutine.Stacks
/-!
# Mailboxes

A mailbox is a queue between `mput` or `mbroadcast` and `mget`, whatever runs in
between. For each coroutine the messages it took, followed by those still in its
mailbox, are the messages delivered to it since its construction.
-/

namespace BoostCoro.Coroutine

variable {s s' : State} {a : Act} {u : User} {evs tr : List Obs} {c p q : CoroId}
  {m : MessagePtr}

/-! ## One step -/

@[simp] theorem dropChld_coroMessages (s : State) (cur : Ctx) :
    (s.dropChld cur).coroMessages = s.coroMessages := by
  unfold State.dropChld
  split <;> rfl

theorem EnterPass.mailbox {coro : Option CoroId} (hpass : EnterPass s coro s' evs) (c : CoroId) :
    s'.coroMessages = s.coroMessages ∧ receipts c evs = [] ∧ deliveries c evs = [] := by
  cases hpass with
  | skip => exact ⟨rfl, rfl, rfl⟩
  | enter => exact ⟨dropChld_coroMessages s _, rfl, rfl⟩

theorem Quiet.mailbox (hquiet : Quiet s u s' evs) (c : CoroId) :
    receipts c evs ++ s'.coroMessages c = s.coroMessages c ++ deliveries c evs := by
  cases hquiet with
  | idle => simp [receipts, deliveries]
  | mput hput =>
      have hspreads := State.mput_spreads hput
      rw [hspreads.received, hspreads.messages, List.nil_append]
  | mbroadcast hcast =>
      obtain ⟨_, hspreads⟩ := State.mbroadcast_ok hcast
      rw [hspreads.received, hspreads.messages, List.nil_append]
  | @mget q m ms _ hmessages =>
      by_cases hc : q = c
      · subst hc
        simp [receipts, deliveries, hmessages]
      · simp [receipts, deliveries, hc, Function.update_of_ne (Ne.symm hc)]
  | cancel hcancel =>
      rcases State.cancel_ok hcancel with
        ⟨rfl, rfl⟩ | ⟨d, _, _, _, _, _, _, hmessages, _, rfl⟩
      · simp [receipts, deliveries]
      · rw [receipts_append, deliveries_append, State.receipts_wokenBy,
          State.deliveries_wokenBy, hmessages]
        simp [receipts, deliveries]
  | fire hfire =>
      obtain ⟨e, _, _, _, _, hmessages, _, rfl⟩ := State.fire_ok hfire
      have hr : ∀ o l, receipts c (Obs.fired o e.evFd l e.evArg :: s.wokenBy .evet e.evArg) =
          receipts c (s.wokenBy .evet e.evArg) := fun _ _ => rfl
      have hd : ∀ o l, deliveries c (Obs.fired o e.evFd l e.evArg :: s.wokenBy .evet e.evArg) =
          deliveries c (s.wokenBy .evet e.evArg) := fun _ _ => rfl
      rw [hr, hd, State.receipts_wokenBy, State.deliveries_wokenBy, hmessages,
        List.append_nil, List.nil_append]
  | flag hset =>
      rw [State.setter_frame hset]
      simp [receipts, deliveries]

/-- Messages enter a mailbox at its end and leave it at its front. -/
theorem Effect.mailbox (heffect : Effect s a s' evs) (c : CoroId)
    (hold : .constructed c ∉ evs) :
    receipts c evs ++ s'.coroMessages c = s.coroMessages c ++ deliveries c evs := by
  have hpass : ∀ {t t' : State} {coro evs}, EnterPass t coro t' evs →
      t.coroMessages = s.coroMessages →
      receipts c evs ++ t'.coroMessages c = s.coroMessages c ++ deliveries c evs := by
    intro t t' coro evs hpass ht
    obtain ⟨hmessages, hreceipts, hdeliveries⟩ := hpass.mailbox c
    rw [hmessages, ht, hreceipts, hdeliveries, List.append_nil, List.nil_append]
  cases heffect with
  | resumePass _ _ _ _ hp => exact hpass hp rfl
  | allPass _ _ _ hp => exact hpass hp rfl
  | executePass _ _ _ hp => exact hpass hp rfl
  | mgetSleep _ _ _ hp => exact hpass hp rfl
  | @mgetTake q _ m ms _ _ hmessages =>
      by_cases hc : q = c
      · subst hc
        simp [receipts, deliveries, hmessages]
      · simp [receipts, deliveries, hc, Function.update_of_ne (Ne.symm hc)]
  | @create d _ _ _ =>
      have hdc : c ≠ d := by
        rintro rfl
        exact hold List.mem_cons_self
      show [] ++ Function.update s.coroMessages d [] c = _
      rw [Function.update_of_ne hdc]
      exact (List.append_nil _).symm
  | callPass _ hp => exact hpass hp rfl
  | callYield _ _ hp => exact hpass hp rfl
  | waitMain => exact (List.append_nil _).symm
  | waitCoro _ _ _ _ hp =>
      have h := hpass hp rfl
      exact h
  | quiet _ hquiet => exact hquiet.mailbox c
  | _ => simp [receipts, deliveries, State.setStack, State.setChilds, State.destroy, State.push]

/-! ## Runs -/

theorem RunOf.mailbox {ok : State → Act → Prop} (h : RunOf ok tr s) (c : CoroId) :
    receipts c (lifetime c tr) ++ s.coroMessages c = deliveries c (lifetime c tr) := by
  have hboth : SchedInv s.toSched ∧
      receipts c (lifetime c tr) ++ s.coroMessages c = deliveries c (lifetime c tr) := by
    refine Transition.Run.invariant_trace
      (I := fun tr s => SchedInv s.toSched ∧
        receipts c (lifetime c tr) ++ s.coroMessages c = deliveries c (lifetime c tr))
      ?_ h ⟨schedInv_init, rfl⟩
    intro tr s a s' evs hinv _ hstep
    have heffect := hinv.1.effect hstep
    refine ⟨hinv.1.step heffect, ?_⟩
    by_cases hnew : .constructed c ∈ evs
    · obtain ⟨rfl, hempty, _⟩ := heffect.constructed hnew
      rw [lifetime_constructed, hempty]
      rfl
    · rw [lifetime_append tr evs hnew, receipts_append, deliveries_append, List.append_assoc,
        heffect.mailbox c hnew, ← List.append_assoc, hinv.2]
  exact hboth.2

/-- Nothing but `mput` and `mbroadcast` delivers. -/
theorem Effect.no_delivery (heffect : Effect s a s' evs)
    (hput : ∀ c m, a ≠ .user (.mput c m)) (hcast : ∀ p m, a ≠ .user (.mbroadcast p m)) :
    evs.filter Obs.isDelivery = [] := by
  have hpass : ∀ {t t' : State} {coro evs}, EnterPass t coro t' evs →
      evs.filter Obs.isDelivery = [] := by
    intro t t' coro evs hpass
    cases hpass <;> rfl
  cases heffect with
  | resumePass _ _ _ _ hp => exact hpass hp
  | allPass _ _ _ hp => exact hpass hp
  | executePass _ _ _ hp => exact hpass hp
  | mgetSleep _ _ _ hp => exact hpass hp
  | callPass _ hp => exact hpass hp
  | callYield _ _ hp => exact hpass hp
  | waitCoro _ _ _ _ hp =>
      have h := hpass hp
      exact h
  | quiet _ hquiet =>
      cases hquiet with
      | mput => exact absurd rfl (hput _ _)
      | mbroadcast => exact absurd rfl (hcast _ _)
      | cancel hcancel =>
          rcases State.cancel_ok hcancel with ⟨_, rfl⟩ | ⟨_, _, _, _, _, _, _, _, _, rfl⟩
          · rfl
          · rw [List.filter_append, State.filter_wokenBy]
            rfl
      | fire hfire =>
          obtain ⟨_, _, _, _, _, _, _, rfl⟩ := State.fire_ok hfire
          exact State.filter_wokenBy
      | _ => rfl
  | _ => rfl

/-- A blocking `mget` is over only when it has a message. -/
theorem Effect.mget_ends (heffect : Effect s a s' evs)
    (hlive : q ∈ s.pool) (hmget : .mget q ∈ s.stack (some q)) :
    .mget q ∈ s'.stack (some q) ∨ ∃ m, evs = [.received q m] := by
  have howner : s.OwnerLive (some q) := fun d hd => Option.some.inj hd ▸ hlive
  have hmem : .mget q ∈ work (s.stack (some q)) := mem_work.mpr ⟨hmget, rfl⟩
  rcases heffect.work_cases with hsame | ⟨f, _, hstart⟩ | ⟨f, rest, htop, hends, hend⟩
  · rw [← hsame _ howner] at hmem
    exact .inl (mem_work.mp hmem).1
  · refine .inl (mem_work.mp (?_ : _ ∈ work _)).1
    rw [hstart _ howner]
    split
    · exact List.mem_cons_of_mem _ hmem
    · exact hmem
  · by_cases hrun : some q = s.running
    · rw [hrun, htop] at hmget
      rcases List.mem_cons.mp hmget with rfl | hrest
      · rcases hends with ⟨q', m, hq, _, hevs⟩ | ⟨_, _, _, hf, _⟩
        · obtain rfl := Frame.mget.inj hq
          exact .inr ⟨m, hevs⟩
        · cases hf
      · refine .inl (mem_work.mp (?_ : _ ∈ work _)).1
        rw [hend _ howner, if_pos hrun]
        exact mem_work.mpr ⟨hrest, rfl⟩
    · refine .inl (mem_work.mp (?_ : _ ∈ work _)).1
      rwa [hend _ howner, if_neg hrun]

/-- Mailboxes neither lose, duplicate nor reorder: what `mget` returned to `c`, and
then what is still in its mailbox, is what was delivered to it since it was
constructed. `mput` delivers once to its target, `mbroadcast` once for each entry
of the list of children, which it leaves as it was, and nothing else delivers. A
blocking `mget` ends with a message. -/
theorem mailbox_fifo (h : RunOf AnyUse tr s) :
    (∀ c, receipts c (lifetime c tr) ++ s.coroMessages c = deliveries c (lifetime c tr)) ∧
    ∀ a s' evs, s.step a = some (.ok (s', evs)) →
      (∀ c m, a = .user (.mput c m) → evs.filter Obs.isDelivery = [.delivered c m]) ∧
      (∀ p m, a = .user (.mbroadcast p m) →
        evs.filter Obs.isDelivery = (s.coroChilds (some p)).map (.delivered · m) ∧
          s'.coroChilds = s.coroChilds) ∧
      ((∀ c m, a ≠ .user (.mput c m)) → (∀ p m, a ≠ .user (.mbroadcast p m)) →
        evs.filter Obs.isDelivery = []) ∧
      ∀ q ∈ s.pool, .mget q ∈ s.stack (some q) →
        .mget q ∈ s'.stack (some q) ∨ ∃ m, evs = [.received q m] := by
  refine ⟨fun c => h.mailbox c, fun a s' evs hstep => ?_⟩
  have heffect := h.schedInv.effect hstep
  refine ⟨?_, ?_, heffect.no_delivery, fun q hlive hmget => heffect.mget_ends hlive hmget⟩
  · rintro c m rfl
    obtain ⟨-, hcall⟩ := State.step_user_inv hstep
    exact (State.mput_spreads (Option.some.inj hcall)).delivered
  · rintro p m rfl
    obtain ⟨-, hcall⟩ := State.step_user_inv hstep
    obtain ⟨hstirs, hspreads⟩ := State.mbroadcast_ok (Option.some.inj hcall)
    exact ⟨hspreads.delivered, congrArg Sched.coroChilds hstirs.sched⟩

/-- Main sends two messages to coroutine 0, which takes the first. -/
theorem mailbox_fifo_two : ∃ tr s, RunOf AnyUse tr s ∧ receipts 0 (lifetime 0 tr) = [7] ∧
    deliveries 0 (lifetime 0 tr) = [7, 8] ∧
    receipts 0 (lifetime 0 tr) ++ s.coroMessages 0 = deliveries 0 (lifetime 0 tr) := by
  have hrun : (Transition.exec State.step AnyUse State.init
      [.user (.create 0 0), .user (.mput 0 7), .user (.mput 0 8), .user (.resume (some 0)),
        .lib, .lib, .lib, .user (.mget true), .lib]).isSome = true := by decide +kernel
  have h := Transition.run_get hrun
  exact ⟨_, _, h, rfl, rfl, (mailbox_fifo h).1 0⟩

end BoostCoro.Coroutine
