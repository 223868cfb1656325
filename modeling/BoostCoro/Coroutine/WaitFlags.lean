import BoostCoro.Coroutine.Asleep
import BoostCoro.Coroutine.Tree
/-!
# The flags in one step

What a step does to the wait flags and the CHLD flags, when each wait is made by the
running coroutine for itself: a wait begins only for the coroutine that calls it, a
CHLD flag is lost only to a pass over the list of its coroutine, and the end of a
wait is told to all ancestors.
-/

namespace BoostCoro.Coroutine

/-- A wait that the running coroutine makes for itself. -/
def SelfWait (s : State) (coro : Option CoroId) : Prop :=
  s.running ≠ none ∧ coro.or s.running = s.running

instance (s : State) (coro : Option CoroId) : Decidable (SelfWait s coro) :=
  inferInstanceAs (Decidable (_ ∧ _))

/-- No flag is set but by the library, and all are clear at first. -/
def FlagsOwn (_ : State) : Act → Prop
  | .user (.create _ raw) => raw = 0
  | .user (.flag _ _ _ _) => False
  | _ => True

instance (s : State) (a : Act) : Decidable (FlagsOwn s a) := by
  induction a using Act.casesOn with
  | lib => exact instDecidableTrue
  | user u => induction u using User.casesOn <;> unfold FlagsOwn <;> infer_instance

/-- The waits of the reactor are made by the running coroutine for itself. -/
def WaitsOwn (s : State) : Act → Prop
  | .user (.setIo _ _ _ coro) => SelfWait s coro
  | .user (.setTimeout _ coro) => SelfWait s coro
  | .user (.setSignal _ coro) => SelfWait s coro
  | _ => True

instance (s : State) (a : Act) : Decidable (WaitsOwn s a) := by
  induction a using Act.casesOn with
  | lib => exact instDecidableTrue
  | user u => induction u using User.casesOn <;> unfold WaitsOwn <;> infer_instance

/-- The tree-driven runs that the wake-ups are about. -/
def WakeDriven (s : State) (a : Act) : Prop :=
  TreeDriven s a ∧ FlagsOwn s a ∧ WaitsOwn s a

instance (s : State) (a : Act) : Decidable (WakeDriven s a) :=
  inferInstanceAs (Decidable (_ ∧ _ ∧ _))

variable {s s' t : State} {a : Act} {evs : List Obs} {c q x : CoroId} {w : FlagWord} {u : User}

theorem StartsWait.self {spec : WaitSpec} {b : Block} {r : Coreactor}
    (hstarts : StartsWait s u c spec b r) (hok : WaitsOwn s (.user u)) :
    s.running = some c := by
  cases hstarts with
  | io hc => exact hok.2.symm.trans hc
  | timeout hc => exact hok.2.symm.trans hc
  | signal hc => exact hok.2.symm.trans hc

/-! ## The flags in one step -/

theorem waiting_iff : s.waiting c = true ↔ ∃ w, s.chk w c coroEvetWait = true := by
  unfold State.waiting
  rw [Bool.or_eq_true]
  constructor
  · rintro (h | h)
    · exact ⟨.evet, h⟩
    · exact ⟨.msg, h⟩
  · rintro ⟨_ | _, h⟩
    · exact .inl h
    · exact .inr h

theorem chk_startWait (s : State) (w : FlagWord) (c : CoroId) (w' : FlagWord) (x : CoroId) :
    (s.startWait w c).chk w' x coroEvetChld = s.chk w' x coroEvetChld ∧
      (w' ≠ w ∨ x ≠ c → (s.startWait w c).chk w' x coroEvetWait = s.chk w' x coroEvetWait) := by
  have hkeep : ~~~coroEvetWait &&& coroEvetChld = coroEvetChld := by decide
  have hclear : hasBit coroEvetWait coroEvetChld = false := by decide
  unfold State.startWait State.chk
  rw [State.setFlags_flags]
  by_cases hself : w' = w ∧ x = c
  · rw [if_pos hself, hasBit_or, hasBit_and, hkeep, hclear, Bool.or_false, hself.1, hself.2]
    exact ⟨rfl, fun hne => absurd hself (by tauto)⟩
  · rw [if_neg hself]
    exact ⟨rfl, fun _ => rfl⟩

theorem chk_dropChld (s : State) (cur : Ctx) (w : FlagWord) (x : CoroId) :
    (s.dropChld cur).chk w x coroEvetWait = s.chk w x coroEvetWait ∧
      (cur ≠ some x → (s.dropChld cur).chk w x coroEvetChld = s.chk w x coroEvetChld) := by
  have hkeep : ~~~coroEvetChld &&& coroEvetWait = coroEvetWait := by decide
  unfold State.dropChld
  split
  next p d hrun =>
    have hone : ∀ (t : State) w', (t.setFlags w' d (t.flags w' d &&& ~~~coroEvetChld)).chk w x
        coroEvetWait = t.chk w x coroEvetWait ∧ (some d ≠ some x →
          (t.setFlags w' d (t.flags w' d &&& ~~~coroEvetChld)).chk w x coroEvetChld =
            t.chk w x coroEvetChld) := by
      intro t w'
      rw [State.chk_setFlags_and, State.chk_setFlags_and, hkeep]
      by_cases hself : w = w' ∧ x = d
      · rw [if_pos hself, hself.1, hself.2]
        exact ⟨rfl, fun hne => absurd rfl hne⟩
      · rw [if_neg hself, if_neg hself]
        exact ⟨rfl, fun _ => rfl⟩
    obtain ⟨hwait, hchld⟩ := hone s .evet
    obtain ⟨hwait', hchld'⟩ := hone (s.setFlags .evet d (s.flags .evet d &&& ~~~coroEvetChld)) .msg
    exact ⟨hwait'.trans hwait, fun hne => (hchld' hne).trans (hchld hne)⟩
  next => exact ⟨rfl, fun _ => rfl⟩

/-- The running coroutine `x` starts to wait, and yields. -/
structure FallsAsleep (s s' : State) (w : FlagWord) (x : CoroId) : Prop where
  running : s.running = some x
  awake : .yield x .childs ∉ s.stack (some x)
  yields : .yield x .childs ∈ s'.stack (some x)
  once : ∀ w', w' ≠ w → s'.chk w' x coroEvetWait = s.chk w' x coroEvetWait

/-- What a step does to the flags of the live coroutines. -/
structure FlagStep (s s' : State) (evs : List Obs) : Prop where
  wait : ∀ w, ∀ x ∈ s.pool, s'.chk w x coroEvetWait = true →
    s.chk w x coroEvetWait = true ∨ FallsAsleep s s' w x
  chld : ∀ w, ∀ x ∈ s.pool, s.chk w x coroEvetChld = true →
    s'.chk w x coroEvetChld = true ∨ .passBegin (some x) ∈ evs
  told : ∀ w, ∀ x ∈ s.pool, s.chk w x coroEvetWait = true → s'.chk w x coroEvetWait = false →
    ∀ p, Relation.TransGen (fun a b => s.coroParent a = some b) x p →
      s'.chk w p coroEvetChld = true

namespace FlagStep

/-- Wait flags stay, and so do the CHLD flags but to a pass. -/
theorem of_chk
    (hwait : ∀ w, ∀ x ∈ s.pool, s'.chk w x coroEvetWait = s.chk w x coroEvetWait)
    (hchld : ∀ w, ∀ x ∈ s.pool, .passBegin (some x) ∈ evs ∨
      s'.chk w x coroEvetChld = s.chk w x coroEvetChld) : FlagStep s s' evs where
  wait := fun w x hx h => .inl (hwait w x hx ▸ h)
  chld := fun w x hx h => by
    rcases hchld w x hx with hbegins | heq
    · exact .inr hbegins
    · exact .inl (heq.trans h)
  told := fun w x hx h hne => by
    rw [hwait w x hx, h] at hne
    cases hne

theorem of_eq (h : s'.flags = s.flags) : FlagStep s s' evs :=
  .of_chk (fun w x _ => by unfold State.chk; rw [h]) fun w x _ =>
    .inr (by unfold State.chk; rw [h])

theorem of_stirs (h : State.Stirs s s') : FlagStep s s' evs where
  wait := fun w x _ hx => .inl (h.wait w x hx)
  chld := fun w x _ hx => .inl (h.chld w x hx)
  told := fun w x _ => h.told w x

end FlagStep

theorem EnterPass.chk {coro : Option CoroId} (hpass : EnterPass s coro s' evs) (w : FlagWord)
    (x : CoroId) : s'.chk w x coroEvetWait = s.chk w x coroEvetWait ∧
      (.passBegin (some x) ∈ evs ∨ s'.chk w x coroEvetChld = s.chk w x coroEvetChld) := by
  cases hpass with
  | skip => exact ⟨rfl, .inr rfl⟩
  | @enter cur _ _ =>
      obtain ⟨hwait, hchld⟩ := chk_dropChld s cur w x
      refine ⟨hwait, ?_⟩
      by_cases hcur : cur = some x
      · exact .inl (hcur ▸ List.mem_cons_self)
      · exact .inr (hchld hcur)

theorem EnterPass.flagStep {coro : Option CoroId} (hpass : EnterPass t coro s' evs)
    (hflags : t.flags = s.flags) : FlagStep s s' evs := by
  have hchk : ∀ w x b, t.chk w x b = s.chk w x b := by
    intro w x b
    unfold State.chk
    rw [hflags]
  refine .of_chk (fun w x _ => ?_) fun w x _ => ?_
  · rw [(hpass.chk w x).1, hchk]
  · rw [← hchk]
    exact (hpass.chk w x).2

/-- The call that starts a wait of `q` and yields. -/
theorem EnterPass.fallsAsleep (hpass : EnterPass t none s' evs) (hrun : s.running = some q)
    (hawake : .yield q .childs ∉ s.stack (some q)) (hflags : t.flags = (s.startWait w q).flags)
    (hyield : .yield q .childs ∈ t.stack (some q)) : FlagStep s s' evs := by
  have hchk : ∀ w' x b, t.chk w' x b = (s.startWait w q).chk w' x b := by
    intro w' x b
    unfold State.chk
    rw [hflags]
  have hother : ∀ w' x, w' ≠ w ∨ x ≠ q →
      s'.chk w' x coroEvetWait = s.chk w' x coroEvetWait := by
    intro w' x hne
    rw [(hpass.chk w' x).1, hchk, (chk_startWait s w q w' x).2 hne]
  constructor
  case wait =>
    intro w' x _ h
    by_cases hself : w' = w ∧ x = q
    · obtain ⟨rfl, rfl⟩ := hself
      exact .inr ⟨hrun, hawake, hpass.mem_stack hyield, fun w'' hne => hother w'' x (.inl hne)⟩
    · rw [hother w' x (by tauto)] at h
      exact .inl h
  case chld =>
    intro w' x _ h
    rcases (hpass.chk w' x).2 with hbegins | hkeep
    · exact .inr hbegins
    · rw [hkeep, hchk, (chk_startWait s w q w' x).1]
      exact .inl h
  case told =>
    intro w' x _ h hne
    have hset : s'.chk w' x coroEvetWait = true := by
      by_cases hself : w' = w ∧ x = q
      · obtain ⟨rfl, rfl⟩ := hself
        rw [(hpass.chk w' x).1, hchk, State.chk, State.startWait, State.setFlags_flags,
          if_pos ⟨rfl, rfl⟩, hasBit_or]
        simp [coroEvetWait, hasBit]
      · rw [hother w' x (by tauto), h]
    rw [hset] at hne
    cases hne

theorem Effect.flagStep (hinv : SchedInv s.toSched) (hok : WakeDriven s a)
    (heffect : Effect s a s' evs) : FlagStep s s' evs := by
  cases heffect with
  | resumePass _ _ _ _ hpass => exact hpass.flagStep rfl
  | allPass _ _ _ hpass => exact hpass.flagStep rfl
  | executePass _ _ _ hpass => exact hpass.flagStep rfl
  | mgetSleep hrun htop _ hpass =>
      refine hpass.fallsAsleep hrun (hinv.yield_notMem hrun htop rfl (by nofun)) rfl ?_
      exact hrun ▸ mem_push (s.startWait .msg _).toSched _
  | @create d raw _ hd =>
      obtain rfl : raw = 0 := hok.2.1
      have hkeep : ∀ w, ∀ x ∈ s.pool, ∀ b, State.chk ((({ s with
          toSched := s.toSched.construct d
          coroMessages := Function.update s.coroMessages d [] } : State).setFlags
            .evet d 0).setFlags .msg d 0) w x b = s.chk w x b := by
        intro w x hx b
        have hne : x ≠ d := fun heq => hd (heq ▸ hx)
        unfold State.chk
        rw [State.setFlags_flags, if_neg fun h => hne h.2, State.setFlags_flags,
          if_neg fun h => hne h.2]
      exact .of_chk (fun w x hx => hkeep w x hx _) fun w x hx => .inr (hkeep w x hx _)
  | callPass _ hpass => exact hpass.flagStep rfl
  | callYield _ _ hpass => exact hpass.flagStep rfl
  | waitMain _ hrun hstarts =>
      rw [hstarts.self hok.2.2] at hrun
      cases hrun
  | @waitCoro _ d q spec b r _ _ huser hrun hstarts _ hpass =>
      obtain rfl : d = q := Option.some.inj ((hstarts.self hok.2.2).symm.trans hrun)
      rcases hinv.userCode huser with ⟨hnone, _⟩ | ⟨e, _, htop⟩
      · rw [hnone] at hrun
        cases hrun
      · have hawake := hinv.yield_notMem hrun htop rfl (by nofun)
        have hsleep := hpass.fallsAsleep (w := .evet) hrun hawake rfl
          (hrun ▸ mem_push ((s.startWait .evet d).push (.wait d spec b)).toSched _)
        exact ⟨hsleep.wait, fun w x hx h =>
          (hsleep.chld w x hx h).imp id fun hmem => List.mem_cons_of_mem _ hmem, hsleep.told⟩
  | quiet _ hquiet =>
      cases hquiet with
      | idle => exact .of_eq rfl
      | mput hput => exact .of_stirs (State.mput_ok hput).2.1.toStirs
      | mbroadcast hcast => exact .of_stirs (State.mbroadcast_ok hcast).1
      | mget => exact .of_eq rfl
      | cancel hcancel =>
          rcases State.cancel_ok hcancel with ⟨rfl, _⟩ | ⟨_, _, _, _, _, _, hwakes, _⟩
          · exact .of_eq rfl
          · exact .of_stirs hwakes.toStirs
      | fire hfire =>
          obtain ⟨_, _, _, _, hwakes, _⟩ := State.fire_ok hfire
          exact .of_stirs hwakes.toStirs
      | flag => exact absurd hok.2.1 id
  | _ => exact .of_eq rfl

end BoostCoro.Coroutine
