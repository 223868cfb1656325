import BoostCoro.Coroutine.Twins
/-!
# The calls of twins

The calls that run to their end without a switch of context do the same in twins:
they fail alike, or report the same and leave twins. None of them reads a CHLD flag.
-/

namespace BoostCoro.Coroutine

open Fallible (Both)

/-- The results of a call of twins. -/
structure TwinResults (q : CoroId) (aside : List Ctx) (stale : List CoroId)
    (since : CoroId → Prop) (a b : State × List Obs) : Prop where
  state : Twins q aside stale since a.1 b.1
  events : b.2 = a.2.map (Obs.standIn q)

/-- The coroutines that are stale after an event of a step from `s`. Main makes the one
stale whose list it goes over; the pass of a coroutine clears the flags in any case. -/
def State.markStale (s : State) (stale : List CoroId) : Obs → List CoroId
  | .passBegin (some d) =>
    if s.running = none ∧ s.notified d = true then d :: stale else stale.filter (· ≠ d)
  | .destroyed d => stale.filter (· ≠ d)
  | _ => stale

/-- The results of a step of twins from `s`. -/
def TwinSteps (q : CoroId) (aside : List Ctx) (stale : List CoroId) (s : State)
    (a b : State × List Obs) : Prop :=
  ∃ since, TwinResults q aside (a.2.foldl s.markStale stale) since a b

variable {q c p : CoroId} {aside : List Ctx} {stale : List CoroId} {since : CoroId → Prop}
  {s m n : State} {w : FlagWord} {msg : MessagePtr}

theorem TwinResults.quiet {a b : State × List Obs} (h : TwinResults q aside stale since a b)
    (hquiet : ∀ o ∈ a.2, o.quiet = true) : TwinSteps q aside stale s a b := by
  have hstale : a.2.foldl s.markStale stale = stale := by
    generalize a.2 = evs at hquiet
    induction evs with
    | nil => rfl
    | cons o evs ih =>
        obtain ⟨ho, hevs⟩ := List.forall_mem_cons.mp hquiet
        have hmark : s.markStale stale o = stale := by cases o <;> first | rfl | cases ho
        rw [List.foldl_cons, hmark, ih hevs]
  exact ⟨since, by rwa [hstale]⟩

/-- While a coroutine runs, no coroutine becomes stale. -/
theorem TwinSteps.of_running {s' : State} {a b : State × List Obs} {x : CoroId}
    (h : TwinSteps q aside stale s a b) (hrun : s.running = some c)
    (hrun' : s'.running = some x) : TwinSteps q aside stale s' a b := by
  have hmark : s'.markStale = s.markStale := by
    funext stale o
    unfold State.markStale
    rw [hrun, hrun']
    rfl
  obtain ⟨since, hresults⟩ := h
  exact ⟨since, by rwa [hmark]⟩

@[simp] theorem map_wokenBy : (m.wokenBy w c).map (Obs.standIn q) = m.wokenBy w c := by
  unfold State.wokenBy
  split <;> rfl

namespace Twins

/-! ## Flags -/

theorem addFlag (k : Nat) (v : StatT) (h : Twins q aside stale since m n) :
    Both (Twins q aside stale since) (State.addFlag w k m c v) (State.addFlag w k n c v) := by
  induction k generalizing m n c v with
  | zero => exact .error _
  | succ k ih =>
      refine (h.checkLive c).bind fun _ _ _ hlive => ?_
      have hset := h.setFlags w ((h.flags c hlive w).or v)
      have hparent : (n.setFlags w c (n.flags w c ||| v)).coroParent c = m.coroParent c :=
        congrFun h.coroParent c
      have hparent' : (m.setFlags w c (m.flags w c ||| v)).coroParent c = m.coroParent c := rfl
      cases hp : m.coroParent c with
      | none =>
          simp only [hparent, hparent', hp]
          exact .ok hset
      | some p =>
          simp only [hparent, hparent', hp]
          exact .ite .rfl (fun _ => .ok hset) fun _ => ih _ hset

theorem notifyParent (h : Twins q aside stale since m n) (w : FlagWord) (c : CoroId) :
    Both (Twins q aside stale since) (m.notifyParent w c) (n.notifyParent w c) := by
  unfold State.notifyParent State.climbFuel
  rw [h.coroParent, h.pool]
  cases m.coroParent c with
  | none => exact .ok h
  | some p => exact h.addFlag _ _

theorem setFlag (h : Twins q aside stale since m n) (w : FlagWord) (c : CoroId) (v : StatT) :
    Both (Twins q aside stale since) (State.setFlag w m c v) (State.setFlag w n c v) := by
  refine (h.checkLive c).bind fun _ _ _ hlive => ?_
  have hset := h.setFlags w ((h.flags c hlive w).update (~~~w.wait) v)
  exact .ite .rfl (fun _ => .ok hset) fun _ => hset.notifyParent w c

theorem notifyEnd (h : Twins q aside stale since m n) (hlive : c ∈ m.pool) {tested v : StatT}
    (htested : tested = v ∨ tested = coroEvetWait) :
    Both (Twins q aside stale since) (m.notifyEnd w tested c v) (n.notifyEnd w tested c v) := by
  refine .ite ?_ (fun _ => h.notifyParent w c) fun _ => .ok h
  by_cases hv : v = w.wait
  · have hwait : tested = coroEvetWait := by
      rcases htested with rfl | rfl
      · rw [hv, FlagWord.wait_eq]
      · rfl
    rw [hwait, h.chk_wait hlive]
  · exact iff_of_false (fun h => hv h.2) fun h => hv h.2

theorem delFlag (h : Twins q aside stale since m n) (w : FlagWord) (c : CoroId) (tested v : StatT)
    (htested : tested = v ∨ tested = coroEvetWait) :
    Both (Twins q aside stale since) (State.delFlag w tested m c v)
      (State.delFlag w tested n c v) := by
  refine (h.checkLive c).bind fun _ _ _ hlive => ?_
  refine (h.notifyEnd hlive htested).bind fun m' n' hm htwins => .ok ?_
  have hlive' : c ∈ m'.pool := by rwa [State.notifyEnd_frame hm]
  exact htwins.setFlags w ((htwins.flags c hlive' w).and _)

theorem setter (h : Twins q aside stale since m n) (op : Setter) (w : FlagWord) (c : CoroId)
    (v : StatT) : Both (Twins q aside stale since) (m.setter op w c v) (n.setter op w c v) := by
  cases op with
  | set => cases w <;> exact h.setFlag _ c v
  | add =>
      unfold State.setter State.eventAdd State.msgAdd State.climbFuel
      rw [h.pool]
      cases w <;> exact h.addFlag _ v
  | del =>
      cases w with
      | evet => exact h.delFlag .evet c v v (.inl rfl)
      | msg => exact h.delFlag .msg c _ v (.inr rfl)

/-! ## Messages -/

theorem wokenBy (h : Twins q aside stale since m n) (hlive : c ∈ m.pool) (w : FlagWord) :
    n.wokenBy w c = (m.wokenBy w c).map (Obs.standIn q) := by
  rw [map_wokenBy]
  unfold State.wokenBy
  rw [FlagWord.wait_eq, h.chk_wait hlive]

theorem mput (h : Twins q aside stale since m n) (c : CoroId) (msg : MessagePtr) :
    Both (TwinResults q aside stale since) (m.mput c msg) (n.mput c msg) := by
  have hdel := h.delFlag .msg c coroMesgWait coroMesgWait (.inr rfl)
  refine hdel.bind fun m' n' hm htwins => .ok ⟨?_, ?_⟩
  · exact htwins.setMessages c (by rw [htwins.coroMessages])
  · have hlive := (State.delFlag_wait hm).1
    rw [h.wokenBy hlive, List.map_append]
    rfl

theorem broadcastLoop (hp : some p ∉ aside) (k : Nat) (h : Twins q aside stale since m n) :
    Both (TwinResults q aside stale since) (State.broadcastLoop p msg k m)
      (State.broadcastLoop p msg k n) := by
  induction k generalizing m n with
  | zero => exact .ok ⟨h, rfl⟩
  | succ k ih =>
      unfold State.broadcastLoop
      rw [h.childs _ hp]
      cases m.coroChilds (some p) with
      | nil => exact .error _
      | cons child rest =>
          have hset := h.setChilds (some p) (l := rest) fun _ => rfl
          refine (hset.mput child msg).bind fun a b _ hput => ?_
          have hback := hput.state.setChilds (some p) (l := a.1.coroChilds (some p) ++ [child])
            fun hp => congrArg (· ++ [child]) (hput.state.childs _ hp)
          refine (ih hback).bind fun a' b' _ hrest => .ok ⟨hrest.state, ?_⟩
          rw [hput.events, hrest.events, List.map_append]

theorem mbroadcast (h : Twins q aside stale since m n) (hp : some p ∉ aside)
    (msg : MessagePtr) :
    Both (TwinResults q aside stale since) (m.mbroadcast p msg) (n.mbroadcast p msg) := by
  unfold State.mbroadcast
  rw [h.childs _ hp]
  exact (h.checkLive p).bind fun _ _ _ _ => h.broadcastLoop hp _

/-! ## Callbacks and cancellation -/

theorem cbEvt (h : Twins q aside stale since m n) (events : EventMask) (c : CoroId) :
    Both (Twins q aside stale since) (m.cbEvt events c) (n.cbEvt events c) := by
  refine (h.delFlag .evet c _ _ (.inl rfl)).bind fun m' n' _ htwins => ?_
  refine .ite .rfl (fun _ => ?_) fun _ => .ok htwins
  unfold State.eventAdd State.climbFuel
  rw [htwins.pool]
  exact htwins.addFlag _ _

theorem fire (h : Twins q aside stale since m n) (b : Block) (watcher : Watcher)
    (revents : EventMask) :
    Option.Rel (Both (TwinResults q aside stale since)) (m.fire b watcher revents)
      (n.fire b watcher revents) := by
  unfold State.fire
  rw [h.reactor]
  cases m.reactor.event b with
  | none => exact .none
  | some e =>
      dsimp only
      split
      · refine .some ?_
        refine ((h.setReactor _).cbEvt revents e.evArg).bind fun m' n' hm htwins =>
          .ok ⟨htwins, ?_⟩
        have hlive := (State.cbEvt_ok hm).1
        rw [h.wokenBy hlive]
        rfl
      · exact .none

theorem cancel (h : Twins q aside stale since m n) {coro coro' : Option CoroId}
    (hcoro : coro'.or n.currentCoroutine = coro.or m.currentCoroutine) :
    Both (TwinResults q aside stale since) (m.cancel coro) (n.cancel coro') := by
  unfold State.cancel
  rw [hcoro, h.reactor]
  cases coro.or m.currentCoroutine with
  | none => exact .ok ⟨h, rfl⟩
  | some c =>
      dsimp only
      cases m.reactor.triggers c with
      | none => exact .ok ⟨h, rfl⟩
      | some event =>
          refine (h.delFlag .evet c _ _ (.inl rfl)).bind fun m₁ n₁ hm h₁ => ?_
          have hlive := (State.delFlag_wait hm).1
          unfold State.eventAdd State.climbFuel
          rw [h₁.pool]
          refine (h₁.addFlag _ _).bind fun m₂ n₂ _ h₂ => ?_
          rw [h₂.reactor]
          refine (Both.refl _).bind fun r _ _ hr => .ok ⟨?_, ?_⟩
          · subst hr
            exact h₂.setReactor _
          · rw [h.wokenBy hlive, List.map_append]
            rfl

end Twins

end BoostCoro.Coroutine
