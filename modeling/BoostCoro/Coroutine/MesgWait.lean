import BoostCoro.Coroutine.Mailbox
import BoostCoro.Coroutine.Triggers
/-!
# The message-wait flag

`resume` skips a coroutine that has `CORO_MESG_WAIT`. In runs that construct
coroutines where the flag is clear, it has it only in a blocking `mget` that finds no
message.
-/

namespace BoostCoro.Coroutine

/-- The constructor finds `CORO_MESG_WAIT` clear, and the users do not touch `_msg`. -/
def MesgClear (_ : State) : Act → Prop
  | .user (.create _ raw) => hasBit raw coroMesgWait = false
  | .user (.flag _ .msg _ _) => False
  | _ => True

instance (s : State) (a : Act) : Decidable (MesgClear s a) := by
  induction a using Act.casesOn with
  | lib => exact instDecidableTrue
  | user u =>
      induction u using User.casesOn with
      | flag op w => induction w using FlagWord.casesOn <;> unfold MesgClear <;> infer_instance
      | _ => unfold MesgClear; infer_instance

variable {s s' : State} {a : Act} {evs tr : List Obs} {c : CoroId}

theorem EnterPass.keeps_mesg {t : State} {coro : Option CoroId} (hpass : EnterPass t coro s' evs)
    (hflags : t.flags .msg = s.flags .msg) (h : s'.chk .msg c coroMesgWait = true) :
    s.chk .msg c coroMesgWait = true ∧ deliveries c evs = [] := by
  refine ⟨?_, (hpass.mailbox c).2.2⟩
  rw [show coroMesgWait = coroEvetWait from rfl, (hpass.chk .msg c).1] at h
  unfold State.chk at h ⊢
  rwa [hflags] at h

theorem startWait_evet (s : State) (d : CoroId) :
    (s.startWait .evet d).flags .msg = s.flags .msg := by
  unfold State.startWait
  exact State.setFlags_word (by nofun) _

/-- Who waits for a message after a step did so before it and got none, or starts to wait
with an empty mailbox in `mget`. -/
theorem Effect.mesgWait (hok : MesgClear s a) (heffect : Effect s a s' evs)
    (h : s'.chk .msg c coroMesgWait = true) :
    s.chk .msg c coroMesgWait = true ∧ deliveries c evs = [] ∨
      .mget c ∈ s'.stack (some c) ∧ s'.coroMessages c = [] := by
  cases heffect with
  | resumePass _ _ _ _ hpass => exact .inl (hpass.keeps_mesg rfl h)
  | allPass _ _ _ hpass => exact .inl (hpass.keeps_mesg rfl h)
  | executePass _ _ _ hpass => exact .inl (hpass.keeps_mesg rfl h)
  | @mgetSleep q rest _ _ hrun htop hempty hpass =>
      by_cases hc : c = q
      · subst hc
        refine .inr ⟨hpass.mem_stack ?_, ?_⟩
        · have hmget : .mget c ∈ s.stack (some c) := by
            rw [← hrun, htop]
            exact List.mem_cons_self
          exact mem_push_of_mem (t := (s.startWait .msg c).toSched) hmget
        · rw [(hpass.mailbox c).1]
          exact hempty
      · left
        obtain ⟨hflag, hnone⟩ := hpass.keeps_mesg (s := s.startWait .msg q) rfl h
        rw [show coroMesgWait = coroEvetWait from rfl,
          (chk_startWait s .msg q .msg c).2 (.inr hc)] at hflag
        exact ⟨hflag, hnone⟩
  | @create d raw =>
      unfold State.chk at h ⊢
      rw [State.setFlags_flags] at h
      split at h
      · rw [show hasBit raw coroMesgWait = false from hok] at h
        cases h
      · rw [State.setFlags_word (by nofun)] at h
        exact .inl ⟨h, rfl⟩
  | callPass _ hpass => exact .inl (hpass.keeps_mesg rfl h)
  | callYield _ _ hpass => exact .inl (hpass.keeps_mesg rfl h)
  | @waitMain _ d =>
      have hflag : (s.startWait .evet d).chk .msg c coroMesgWait = true := h
      unfold State.chk at hflag ⊢
      rw [startWait_evet] at hflag
      exact .inl ⟨hflag, rfl⟩
  | @waitCoro _ d _ _ _ _ _ _ _ _ _ _ hpass =>
      exact .inl (hpass.keeps_mesg (startWait_evet s d) h)
  | quiet _ hquiet =>
      left
      cases hquiet with
      | idle => exact ⟨h, rfl⟩
      | mput hput => exact (State.mput_spreads hput).missed c h
      | mbroadcast hcast => exact (State.mbroadcast_ok hcast).2.missed c h
      | mget => exact ⟨h, rfl⟩
      | cancel hcancel =>
          rcases State.cancel_ok hcancel with ⟨rfl, rfl⟩ | ⟨d, _, _, _, _, _, hwakes, _, _, rfl⟩
          · exact ⟨h, rfl⟩
          · refine ⟨(hwakes.others .msg c (.inl nofun)).symm.trans h, ?_⟩
            rw [deliveries_append, State.deliveries_wokenBy]
            rfl
      | fire hfire =>
          obtain ⟨e, _, _, _, hwakes, _, _, rfl⟩ := State.fire_ok hfire
          refine ⟨(hwakes.others .msg c (.inl nofun)).symm.trans h, ?_⟩
          show deliveries c (s.wokenBy .evet e.evArg) = []
          exact State.deliveries_wokenBy c
      | @flag _ word _ _ _ hset =>
          cases word with
          | msg => exact absurd hok id
          | evet =>
              unfold State.chk at h ⊢
              rw [State.setter_word (by nofun) hset] at h
              exact ⟨h, rfl⟩
  | _ => exact .inl ⟨h, rfl⟩

/-- `CORO_MESG_WAIT` is set in a blocking `mget` on an empty mailbox only. -/
def MesgBlocked (s : State) : Prop :=
  ∀ c ∈ s.pool, s.chk .msg c coroMesgWait = true →
    .mget c ∈ s.stack (some c) ∧ s.coroMessages c = []

theorem MesgBlocked.step (h : MesgBlocked s) (hok : MesgClear s a) (heffect : Effect s a s' evs) :
    MesgBlocked s' := by
  intro c hc hflag
  by_cases hnew : .constructed c ∈ evs
  · obtain ⟨_, _, raw, rfl, _, hraw, _⟩ := heffect.constructed hnew
    have hclear : hasBit raw coroMesgWait = false := hok
    rw [State.chk, hraw, hclear] at hflag
    cases hflag
  · rcases heffect.mesgWait hok hflag with ⟨hold, hnone⟩ | hstarts
    · have hlive := (heffect.pool hc).resolve_right hnew
      obtain ⟨hmget, hempty⟩ := h c hlive hold
      have hmail := heffect.mailbox c hnew
      rw [hempty, hnone, List.append_nil, List.append_eq_nil_iff] at hmail
      refine ⟨?_, hmail.2⟩
      rcases heffect.mget_ends hlive hmget with hkept | ⟨m, rfl⟩
      · exact hkept
      · simp [receipts] at hmail
    · exact hstarts

/-- In every run that constructs coroutines where `CORO_MESG_WAIT` is clear, a coroutine has
it only in a blocking `mget` on an empty mailbox, and never in INIT. -/
theorem mesg_wait_blocks (h : RunOf MesgClear tr s) :
    ∀ c ∈ s.pool, (s.chk .msg c coroMesgWait = true →
      .mget c ∈ s.stack (some c) ∧ s.coroMessages c = []) ∧
        (s.stat c = coroStatInit → s.chk .msg c coroMesgWait = false) := by
  have hboth : SchedInv s.toSched ∧ MesgBlocked s := by
    refine Transition.Run.invariant (I := fun s => SchedInv s.toSched ∧ MesgBlocked s) ?_ h
      ⟨schedInv_init, fun _ hc => absurd hc List.not_mem_nil⟩
    rintro s a s' evs ⟨hinv, hblocked⟩ hok hstep
    have heffect := hinv.effect hstep
    exact ⟨hinv.step heffect, hblocked.step hok heffect⟩
  obtain ⟨hinv, hblocked⟩ := hboth
  refine fun c hc => ⟨hblocked c hc, fun hstat => ?_⟩
  by_contra hflag
  obtain ⟨hmget, _⟩ := hblocked c hc (by simpa using hflag)
  rw [(hinv.fresh c hc).mp hstat] at hmget
  cases hmget

/-- The runs in which control moves by passes and yields, and the users do not touch
`_msg`. -/
def MesgDriven (s : State) : Act → Prop
  | .user (.flag _ .msg _ _) => False
  | a => TreeDriven s a

instance (s : State) (a : Act) : Decidable (MesgDriven s a) := by
  unfold MesgDriven
  split <;> infer_instance

/-- Coroutine 0 waits for a message. -/
def waitsForMessage : List Act := enterAlone ++ [.user (.mget true), .lib, .lib]

theorem mesg_wait_blocks_mget : ∃ tr s, RunOf MesgClear tr s ∧
    s.chk .msg 0 coroMesgWait = true ∧ .mget 0 ∈ s.stack (some 0) ∧ s.coroMessages 0 = [] := by
  have hrun : RunOf MesgClear _
      (Transition.after State.step MesgClear State.init waitsForMessage).1 :=
    Transition.run_after (by decide +kernel)
  have hflag : (Transition.after State.step MesgClear State.init waitsForMessage).1.chk .msg 0
      coroMesgWait = true := by decide +kernel
  exact ⟨_, _, hrun, hflag, (mesg_wait_blocks hrun 0 (by decide +kernel)).1 hflag⟩

/-- Main attaches a coroutine that was constructed where `CORO_MESG_WAIT` was set, and
passes over its children once. -/
def attachesRecycled : List Act :=
  [.user (.create 0 coroMesgWait), .user (.child 0), .user (.resumeChilds none), .lib, .lib, .lib,
    .lib, .lib]

/-- A coroutine in INIT waits for a message, so a whole pass does not resume it. -/
theorem fresh_coroutine_skipped : ∃ tr s, RunOf MesgDriven tr s ∧ 0 ∈ s.pool ∧
    s.chk .msg 0 coroMesgWait = true ∧ s.stack (some 0) = [] ∧ s.stat 0 = coroStatInit ∧
      .passEnd none ∈ tr ∧ .transferred 0 ∉ tr := by
  have hrun : RunOf MesgDriven _
      (Transition.after State.step MesgDriven State.init attachesRecycled).1 :=
    Transition.run_after (by decide +kernel)
  exact ⟨_, _, hrun, by decide +kernel, by decide +kernel, by decide +kernel, by decide +kernel,
    by decide +kernel, by decide +kernel⟩

end BoostCoro.Coroutine
