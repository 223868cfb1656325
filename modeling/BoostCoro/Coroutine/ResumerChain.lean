import BoostCoro.Coroutine.Faults
import BoostCoro.Coroutine.Running
import BoostCoro.Lib.Walk
import Mathlib.Data.List.Perm.Subperm
/-!
# The resumer chain

Following `_coro_pre` from the running coroutine. `transfer` overwrites the
resumer of the coroutine it resumes, so the chain leads to main as long as no
coroutine is resumed that is itself suspended in a `resume` on the chain.
-/

namespace BoostCoro.Coroutine

open Walk (Chain walk)
open Fallible (Faults)

/-- The coroutines from the running one along `_coro_pre`. -/
def Sched.resumers (s : Sched) : List CoroId := walk s.coroPre s.pool.length s.running

/-- The chain ends at main, and all on it but the running one wait on it. -/
structure ResumerChain (s : Sched) (chain : List CoroId) : Prop where
  toMain : Chain s.coroPre s.running chain
  waiting : ∀ c ∈ chain, c ∈ s.pool ∧ (s.running ≠ some c → s.stat c = coroStatWait)

/-- The step does not transfer to a coroutine on the chain: a `resume` past its
tests finds its coroutine elsewhere. -/
def TransfersOffChain (s : State) : Act → Prop
  | .lib =>
    match s.stack s.running with
    | .resume _ c .transfer :: _ => s.waiting c = true ∨ c ∉ s.resumers
    | _ => True
  | .user _ => True

instance (s : State) (a : Act) : Decidable (TransfersOffChain s a) := by
  unfold TransfersOffChain
  cases a with
  | lib => dsimp only; split <;> infer_instance
  | user _ => exact instDecidableTrue

namespace ResumerChain

variable {s s' : Sched} {chain : List CoroId} {c : CoroId}

theorem nodup (h : ResumerChain s chain) : chain.Nodup := h.toMain.nodup

theorem length_le (h : ResumerChain s chain) : chain.length ≤ s.pool.length :=
  (h.nodup.subperm fun _ hc => (h.waiting _ hc).1).length_le

theorem resumers_eq (h : ResumerChain s chain) : s.resumers = chain :=
  h.toMain.walk_eq h.length_le

theorem congr (h : ResumerChain s chain) (hpool : s'.pool = s.pool) (hpre : s'.coroPre = s.coroPre)
    (hrun : s'.running = s.running) (hstat : s'.stat = s.stat) : ResumerChain s' chain where
  toMain := by rw [hpre, hrun]; exact h.toMain
  waiting := fun c hc => by rw [hpool, hrun, hstat]; exact h.waiting c hc

/-- The coroutine that is resumed comes before the chain. -/
theorem switchTo (h : ResumerChain s chain) (hlive : c ∈ s.pool) (hoff : c ∉ chain) :
    ResumerChain (s.switchTo c) (c :: chain) where
  toMain := by
    refine .cons ?_
    show Chain (Function.update s.coroPre c s.running) (Function.update s.coroPre c s.running c) _
    rw [Function.update_self]
    refine h.toMain.congr fun d hd => Function.update_of_ne ?_ ..
    rintro rfl
    exact hoff hd
  waiting := by
    intro d hd
    rcases List.mem_cons.mp hd with rfl | hd
    · exact ⟨hlive, fun hne => absurd rfl hne⟩
    · have hdc : d ≠ c := fun hdc => hoff (hdc ▸ hd)
      refine ⟨(h.waiting d hd).1, fun _ => ?_⟩
      rw [SchedInv.switchTo_stat, if_neg hdc]
      by_cases hrun : s.running = some d
      · rw [if_pos hrun]
      · rw [if_neg hrun, (h.waiting d hd).2 hrun]

/-- The running coroutine leaves the chain. -/
theorem switchBack (h : ResumerChain s chain) (hrun : s.running = some c) :
    ∃ rest, chain = c :: rest ∧ ResumerChain (s.switchBack c) rest := by
  have hmain := h.toMain
  have hnodup := h.nodup
  rw [hrun] at hmain
  cases hmain with
  | @cons _ rest hmain =>
      refine ⟨rest, rfl, hmain, fun d hd => ⟨(h.waiting d (.tail _ hd)).1, fun hne => ?_⟩⟩
      have hdc : d ≠ c := fun hdc => (List.nodup_cons.mp hnodup).1 (hdc ▸ hd)
      have hpre : s.coroPre c ≠ some d := hne
      rw [SchedInv.switchBack_stat, if_neg hpre, if_neg fun h => hdc h.1]
      refine (h.waiting d (.tail _ hd)).2 ?_
      rw [hrun]
      exact fun hcd => hdc (Option.some.inj hcd).symm

theorem destroy (h : ResumerChain s chain) (hinv : SchedInv s) (hdone : s.stat c = coroStatDone) :
    ResumerChain (s.destroy c) chain where
  toMain := h.toMain
  waiting := by
    intro d hd
    have hdc : d ≠ c := by
      rintro rfl
      have hlive := (h.waiting d hd).1
      have hwait := (h.waiting d hd).2 (hinv.running_ne hlive (by rw [hdone]; decide))
      rw [hdone] at hwait
      exact absurd hwait (by decide)
    exact ⟨(List.mem_erase_of_ne hdc).mpr (h.waiting d hd).1, (h.waiting d hd).2⟩

theorem construct (h : ResumerChain s chain) (hc : c ∉ s.pool) :
    ResumerChain (s.construct c) chain := by
  have hold : ∀ d ∈ chain, d ≠ c := fun d hd hdc => hc (hdc ▸ (h.waiting d hd).1)
  refine ⟨h.toMain.congr fun d hd => Function.update_of_ne (hold d hd) .., fun d hd => ?_⟩
  refine ⟨List.mem_cons_of_mem _ (h.waiting d hd).1, fun hrun => ?_⟩
  exact (Function.update_of_ne (hold d hd) ..).trans ((h.waiting d hd).2 hrun)

end ResumerChain

/-! ## Runs -/

variable {s s' : State} {a : Act} {evs : List Obs} {c : CoroId} {chain : List CoroId}

theorem EnterPass.resumerChain {coro : Option CoroId} (hpass : EnterPass s coro s' evs)
    (h : ResumerChain s.toSched chain) : ResumerChain s'.toSched chain := by
  cases hpass with
  | skip => exact h
  | @enter cur _ _ =>
      show ResumerChain ((s.dropChld cur).toSched.push _) chain
      rw [dropChld_toSched]
      exact h.congr rfl rfl rfl rfl

theorem ResumerChain.setStack (h : ResumerChain s.toSched chain) (fs : List Frame) :
    ResumerChain (s.setStack fs).toSched chain := h.congr rfl rfl rfl rfl

theorem ResumerChain.off (h : ResumerChain s.toSched chain) (hok : TransfersOffChain s .lib)
    {rest : List Frame} (htop : s.stack s.running = .resume s.running c .transfer :: rest)
    (hwait : s.waiting c = false) : c ∉ chain := by
  simp only [TransfersOffChain, htop, hwait, Bool.false_eq_true, false_or, h.resumers_eq] at hok
  exact hok

/-- What a step does to the chain: a coroutine comes to it by a transfer, and the
running coroutine leaves it when it hands control back. -/
structure ChainStep (s s' : State) (evs : List Obs) (chain chain' : List CoroId) : Prop where
  keeps : ResumerChain s'.toSched chain'
  enters : ∀ c ∈ chain', c ∈ chain ∨ .transferred c ∈ evs
  leaves : ∀ p, .handedBack p ∈ evs → ∀ c, s.running = some c → c ∉ chain'

theorem ResumerChain.same (h : ResumerChain s'.toSched chain)
    (hno : ∀ p, .handedBack p ∉ evs) : ∃ chain', ChainStep s s' evs chain chain' :=
  ⟨chain, h, fun _ hc => .inl hc, fun p hp => absurd hp (hno p)⟩

theorem ResumerChain.left {t : Sched} (h : ResumerChain t chain) (hrun : t.running = some c)
    (hs : s.running = some c) (hs' : s'.toSched = t.switchBack c) :
    ∃ chain', ChainStep s s' evs chain chain' := by
  obtain ⟨rest, hrest, hback⟩ := h.switchBack hrun
  have hnodup := h.nodup
  rw [hrest] at hnodup
  refine ⟨rest, hs' ▸ hback, fun d hd => .inl (hrest ▸ List.mem_cons_of_mem _ hd), ?_⟩
  intro _ _ d hd
  rw [hs] at hd
  exact Option.some.inj hd ▸ (List.nodup_cons.mp hnodup).1

theorem ResumerChain.step (h : ResumerChain s.toSched chain) (hinv : SchedInv s.toSched)
    (hok : TransfersOffChain s a) (heffect : Effect s a s' evs) :
    ∃ chain', ChainStep s s' evs chain chain' := by
  cases heffect with
  | resumePass _ _ _ _ hpass =>
      exact (hpass.resumerChain (h.setStack _)).same fun _ => hpass.only nofun
  | @transfer c _ htop hlive _ hwait =>
      refine ⟨c :: chain, (h.setStack _).switchTo hlive (h.off hok htop hwait), ?_, by simp⟩
      intro d hd
      rcases List.mem_cons.mp hd with rfl | hd
      · exact .inr List.mem_cons_self
      · exact .inl hd
  | passDestroy _ _ _ _ hdone =>
      exact ResumerChain.same ((h.destroy hinv hdone).congr rfl rfl rfl rfl) (by simp)
  | passDrop _ _ hdone =>
      exact ResumerChain.same ((h.destroy hinv hdone).congr rfl rfl rfl rfl) (by simp)
  | allPass _ _ _ hpass => exact (hpass.resumerChain h).same fun _ => hpass.only nofun
  | yieldOut hrun => exact (h.setStack _).left hrun hrun rfl
  | executePass _ _ _ hpass => exact (hpass.resumerChain h).same fun _ => hpass.only nofun
  | @finish c hrun =>
      have hdone : ResumerChain (s.toSched.setStat c coroStatDone) chain := by
        refine ⟨h.toMain, fun d hd => ⟨(h.waiting d hd).1, fun hne => ?_⟩⟩
        have hdc : d ≠ c := by
          rintro rfl
          exact hne hrun
        exact (Function.update_of_ne hdc ..).trans ((h.waiting d hd).2 hne)
      have hleft : ResumerChain ((s.toSched.setStat c coroStatDone).setStack
          [.execute c .back]) chain := hdone.congr rfl rfl rfl rfl
      exact hleft.left hrun hrun rfl
  | @mgetSleep q _ _ _ _ _ _ hpass =>
      have hq : ResumerChain (s.startWait .msg q).toSched chain := h
      exact (hpass.resumerChain (hq.setStack _)).same fun _ => hpass.only nofun
  | create _ hc => exact (h.construct hc).same (by simp)
  | callPass _ hpass => exact (hpass.resumerChain h).same fun _ => hpass.only nofun
  | callYield _ _ hpass =>
      exact (hpass.resumerChain (h.setStack _)).same fun _ => hpass.only nofun
  | waitCoro _ _ _ _ hpass =>
      refine (hpass.resumerChain (h.congr rfl rfl rfl rfl)).same fun p hp => ?_
      rcases List.mem_cons.mp hp with hp | hp
      · cases hp
      · exact absurd hp (hpass.only nofun)
  | @quiet _ _ _ _ hquiet =>
      have hkeep : ResumerChain s'.toSched chain := by rwa [hquiet.sched]
      exact hkeep.same fun p hp => absurd (hquiet.events _ hp) Bool.false_ne_true
  | _ => exact ResumerChain.same (h.congr rfl rfl rfl rfl) (by simp)

theorem RunOf.resumerChain {ok : State → Act → Prop} {tr : List Obs}
    (himp : ∀ s a, ok s a → TransfersOffChain s a) (h : RunOf ok tr s) :
    ∃ chain, ResumerChain s.toSched chain := by
  have hboth : SchedInv s.toSched ∧ ∃ chain, ResumerChain s.toSched chain := by
    refine Transition.Run.invariant
      (I := fun s => SchedInv s.toSched ∧ ∃ chain, ResumerChain s.toSched chain) ?_ h
      ⟨schedInv_init, [], .nil, fun _ hc => absurd hc List.not_mem_nil⟩
    intro s a s' evs hinv hok hstep
    obtain ⟨hsched, chain, hchain⟩ := hinv
    have heffect := hsched.effect hstep
    obtain ⟨chain', hstep'⟩ := hchain.step hsched (himp s a hok) heffect
    exact ⟨hsched.step heffect, chain', hstep'.keeps⟩
  exact hboth.2

/-! ## The assertion of `transfer_pre` -/

/-- The resumer of the running coroutine is in WAIT. -/
theorem ResumerChain.ready (h : ResumerChain s.toSched chain) (hrun : s.running = some c) :
    ResumerReady s.toSched c := by
  intro p hp
  have hmain := h.toMain
  have hnodup := h.nodup
  rw [hrun] at hmain
  cases hmain with
  | cons hmain =>
      rw [hp] at hmain
      cases hmain with
      | cons hmain =>
          have hpc : p ≠ c := by
            rintro rfl
            exact (List.nodup_cons.mp hnodup).1 List.mem_cons_self
          obtain ⟨hlive, hwait⟩ := h.waiting p (.tail _ List.mem_cons_self)
          refine ⟨hlive, hwait ?_⟩
          rw [hrun]
          exact fun hcp => hpc (Option.some.inj hcp).symm

theorem ResumerChain.handBack_faults (h : ResumerChain s.toSched chain) (hinv : SchedInv s.toSched)
    (hrun : s.running = some c) {t : Sched} {fs : List Frame}
    (ht : t = s.toSched ∨ t = s.toSched.setStat c coroStatDone) :
    Faults (· ≠ .assertTransferPre) (State.handBack { s with toSched := t } c fs) := by
  refine State.handBack_faults nofun nofun fun p hp hne _ => hne ?_
  have hpre : s.coroPre c = some p := by
    rcases ht with rfl | rfl <;> exact hp
  have hpc : p ≠ c := fun hpc => hinv.preNe c (hpc ▸ hpre)
  have hwait : t.stat p = coroStatWait := by
    rcases ht with rfl | rfl
    · exact (h.ready hrun p hpre).2
    · exact (Function.update_of_ne hpc ..).trans (h.ready hrun p hpre).2
  show (t.busyToWait c).stat p = coroStatWait
  unfold Sched.busyToWait
  split
  · exact (Function.update_of_ne hpc ..).trans hwait
  · exact hwait

/-- A transfer is the end of a `resume` past its tests. -/
theorem Effect.transferred (heffect : Effect s a s' evs) (hc : .transferred c ∈ evs) :
    a = .lib ∧ s.waiting c = false ∧
      ∃ rest, s.stack s.running = .resume s.running c .transfer :: rest := by
  cases heffect with
  | resumePass _ _ _ _ hpass => exact absurd hc (hpass.only nofun)
  | transfer htop _ _ hwait =>
      obtain rfl := Obs.transferred.inj (List.mem_singleton.mp hc)
      exact ⟨rfl, hwait, _, htop⟩
  | allPass _ _ _ hpass => exact absurd hc (hpass.only nofun)
  | executePass _ _ _ hpass => exact absurd hc (hpass.only nofun)
  | mgetSleep _ _ _ hpass => exact absurd hc (hpass.only nofun)
  | callPass _ hpass => exact absurd hc (hpass.only nofun)
  | callYield _ _ hpass => exact absurd hc (hpass.only nofun)
  | waitCoro _ _ _ _ hpass =>
      rcases List.mem_cons.mp hc with hc | hc
      · cases hc
      · exact absurd hc (hpass.only nofun)
  | quiet _ hquiet => exact absurd (hquiet.events _ hc) Bool.false_ne_true
  | _ => simp at hc

/-- In every run without a transfer to a coroutine that is suspended in a `resume`
on the chain, the chain leads to main through waiting coroutines that are all
different, and the assertion of `transfer_pre` holds. -/
theorem chain_to_main {tr : List Obs} (h : RunOf TransfersOffChain tr s) :
    (∃ chain, Chain s.coroPre s.running chain ∧ chain.Nodup ∧
      (∀ c ∈ chain, c ∈ s.pool ∧ (s.running ≠ some c → s.stat c = coroStatWait)) ∧
      ∀ a s' evs c, TransfersOffChain s a → s.step a = some (.ok (s', evs)) →
        .transferred c ∈ evs → c ∉ chain) ∧
    ∀ a, s.step a ≠ some (.error .assertTransferPre) := by
  obtain ⟨chain, hchain⟩ := h.resumerChain fun _ _ hok => hok
  have hinv := h.schedInv
  refine ⟨⟨chain, hchain.toMain, hchain.nodup, hchain.waiting, ?_⟩, fun a hfault => ?_⟩
  · intro a s' evs c hok hstep hc
    obtain ⟨rfl, hwait, rest, htop⟩ := (hinv.effect hstep).transferred hc
    exact hchain.off hok htop hwait
  · cases a with
    | lib =>
        obtain ⟨-, top, rest, htop, hframe⟩ := State.step_lib_inv hfault
        have hown : top.ownedBy s.running := (htop ▸ hinv.stacked s.running : Stacked _ _).owned
        refine State.stepFrame_faults (P := (· ≠ .assertTransferPre)) (fun _ hne _ _ => hne)
          ?_ ?_ (fun _ _ _ _ _ => ⟨nofun, nofun⟩) _ hframe rfl
        · rintro q fs rfl
          exact hchain.handBack_faults hinv hown (.inl rfl)
        · rintro c fs rfl
          exact hchain.handBack_faults hinv hown (.inr rfl)
    | user u =>
        obtain ⟨-, hcall⟩ := State.step_user_inv hfault
        exact State.stepUser_faults (P := (· ≠ .assertTransferPre))
          (fun _ hne _ _ => hne) nofun hcall _ rfl rfl

/-- Main resumes coroutine 0, which resumes coroutine 1. -/
theorem chain_to_main_nested : ∃ tr s, RunOf TransfersOffChain tr s ∧ s.running = some 1 ∧
    s.coroPre 1 = some 0 ∧ s.coroPre 0 = none ∧ (∃ chain, Chain s.coroPre s.running chain) ∧
    s.step .lib ≠ some (.error .assertTransferPre) := by
  have hrun : (Transition.exec State.step TransfersOffChain State.init
      [.user (.create 0 0), .user (.create 1 0), .user (.resume (some 0)), .lib, .lib, .lib,
        .user (.resume (some 1)), .lib, .lib, .lib]).isSome = true := by decide +kernel
  have h := Transition.run_get hrun
  obtain ⟨⟨chain, hchain, _⟩, hassert⟩ := chain_to_main h
  exact ⟨_, _, h, rfl, rfl, rfl, ⟨chain, hchain⟩, hassert .lib⟩

/-- Coroutine 1, resumed by coroutine 0, resumes 0. The chain then goes round, and
when 0 has finished the assertion of `transfer_pre` fails in 1. -/
theorem chain_goes_round :
    (∃ tr s, RunOf AnyUse tr s ∧ ¬ ∃ chain, Chain s.coroPre s.running chain) ∧
    ∃ tr s, RunOf AnyUse tr s ∧ s.step .lib = some (.error .assertTransferPre) := by
  have hround : (Transition.exec State.step AnyUse State.init
      [.user (.create 0 0), .user (.create 1 0), .user (.resume (some 0)), .lib, .lib, .lib,
        .user (.resume (some 1)), .lib, .lib, .lib,
        .user (.resume (some 0)), .lib, .lib]).isSome = true := by decide +kernel
  have hassert : Transition.faultAfter State.step AnyUse State.init
      [.user (.create 0 0), .user (.create 1 0), .user (.resume (some 0)), .lib, .lib, .lib,
        .user (.resume (some 1)), .lib, .lib, .lib,
        .user (.resume (some 0)), .lib, .lib,
        .lib, .user .return, .lib, .lib, .user .yield, .lib] .lib =
      some .assertTransferPre := by decide +kernel
  refine ⟨⟨_, _, Transition.run_get hround, ?_⟩, Transition.run_of_faultAfter hassert⟩
  rintro ⟨chain, hchain⟩
  have hnodup := hchain.nodup
  -- 0, then 1, then 0 again
  have h0 : Chain _ (some 0) chain := hchain
  cases h0 with
  | cons h1 =>
      have h1 : Chain _ (some 1) _ := h1
      cases h1 with
      | cons h2 =>
          have h2 : Chain _ (some 0) _ := h2
          cases h2 with
          | cons _ => simp at hnodup

end BoostCoro.Coroutine
