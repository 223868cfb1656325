import BoostCoro.Cothread.Effects
/-!
# Which threads there are

Objects and threads come from `create_cothread` and `resume`; the first step of a
thread begins `execute`. All other steps are steady: they change neither, so what is
said of who was started for whom stays true.
-/

namespace BoostCoro.Cothread

open Fallible

variable {s s' s₁ s₂ : State} {t : ThreadId} {a : Act} {c : CothreadId} {o : CothreadBase}
  {records : Bool} {evs : List Obs}

/-! ## Steps that create nothing and begin nothing -/

/-- The objects and their threads stay as they are, and no thread is at the start that
was not. -/
structure Steady (s s' : State) : Prop where
  nextCothread : s'.nextCothread = s.nextCothread
  nextPid : s'.nextPid = s.nextPid
  ctx : s'.ctx = s.ctx
  cothread : ∀ {c o'}, s'.cothread c = some o' → ∃ o, s.cothread c = some o ∧ o'.pid = o.pid
  start : ∀ {t}, s'.control t = some .start → s.control t = some .start
  control : ∀ {t k'}, s'.control t = some k' → ∃ k, s.control t = some k

theorem Calm.steady (h : Calm s s') : Steady s s' where
  nextCothread := h.nextCothread
  nextPid := h.nextPid
  ctx := funext fun p => by rw [State.ctx, State.ctx, h.pthread]
  cothread := by
    intro c o' ho'
    obtain ⟨o, ho, _, _, hpid⟩ := h.cothread ho'
    exact ⟨o, ho, hpid⟩
  start := by
    intro t ht
    rwa [← h.control]
  control := by
    intro t k' ht
    exact ⟨k', by rwa [← h.control]⟩

theorem Steady.trans (h : Steady s s₁) (h' : Steady s₁ s₂) : Steady s s₂ where
  nextCothread := h'.nextCothread.trans h.nextCothread
  nextPid := h'.nextPid.trans h.nextPid
  ctx := h'.ctx.trans h.ctx
  cothread := by
    intro c o₂ ho₂
    obtain ⟨o₁, ho₁, hpid₁⟩ := h'.cothread ho₂
    obtain ⟨o, ho, hpid⟩ := h.cothread ho₁
    exact ⟨o, ho, hpid₁.trans hpid⟩
  start := fun ht => h.start (h'.start ht)
  control := by
    intro t k₂ ht
    obtain ⟨k₁, hk₁⟩ := h'.control ht
    exact h.control hk₁

theorem steady_setControl {k k' : Control} (hfrom : s.control t = some k) (hk' : k' ≠ .start) :
    Steady s (s.setControl t k') where
  nextCothread := rfl
  nextPid := rfl
  ctx := rfl
  cothread := fun ho => ⟨_, ho, rfl⟩
  start := by
    intro u hu
    rcases update_eq_some.mp hu with ⟨_, hbad⟩ | ⟨_, hu⟩
    · exact absurd hbad hk'
    · exact hu
  control := by
    intro u k₁ hu
    rcases update_eq_some.mp hu with ⟨rfl, _⟩ | ⟨_, hu⟩
    · exact ⟨k, hfrom⟩
    · exact ⟨k₁, hu⟩

theorem steady_joined {p : Pid} {th : Pthread} (hth : s.pthread p = some th) :
    Steady s { s with
      pthread := Function.update s.pthread p (some { th with joined := true }) } where
  nextCothread := rfl
  nextPid := rfl
  ctx := by
    funext q
    by_cases h : q = p
    · subst h
      simp [State.ctx, hth]
    · simp [State.ctx, h]
  cothread := fun ho => ⟨_, ho, rfl⟩
  start := id
  control := fun h => ⟨_, h⟩

theorem State.recordJoined_cothread (h : s.recordJoined c records = .ok s') :
    s' = s ∧ records = false ∨
      ∃ o, s.cothread c = some o ∧ records = true ∧
        s' = s.setCothread c { o with joined := true } := by
  cases records with
  | false => exact .inl ⟨(Except.ok.inj h).symm, rfl⟩
  | true =>
      obtain ⟨o, ho, h⟩ := bind_eq_ok.mp h
      exact .inr ⟨o, State.find_ok.mp ho, rfl, (Except.ok.inj h).symm⟩

theorem steady_recordJoined (h : s.recordJoined c records = .ok s') : Steady s s' := by
  rcases State.recordJoined_cothread h with ⟨rfl, _⟩ | ⟨o, ho, _, rfl⟩
  · exact (Calm.refl s').steady
  · refine ⟨rfl, rfl, rfl, fun {d o'} hd => ?_, id, fun h => ⟨_, h⟩⟩
    rcases update_eq_some.mp hd with ⟨rfl, rfl⟩ | ⟨_, hd⟩
    · exact ⟨o, ho, rfl⟩
    · exact ⟨o', hd, rfl⟩

theorem recordJoined_control (h : s.recordJoined c records = .ok s') :
    s'.control t = s.control t := by
  rcases State.recordJoined_cothread h with ⟨rfl, _⟩ | ⟨o, ho, _, rfl⟩
  · rfl
  · rfl

/-- The step `a` of the thread `t` as far as it starts threads. -/
inductive Starting (s : State) (t : ThreadId) (a : Act) : State → List Obs → Prop
  | create (function : Bool) : Starting s t a (s.createCothread function) []
  | spawn {c o o' option detached} (hact : a = .user (.resume c option))
      (ho : s.cothread c = some o) (hrunned : o.runned = false) :
      Starting s t a (s.pthreadCreate c o' detached) [.created c]
  | begin {p c o k} (ht : t = some p) (hfrom : s.control t = some .start)
      (hctx : s.ctx p = some c) (ho : s.cothread c = some o) (hk : k ≠ .start) :
      Starting s t a (((s.set t (some c)).setCothread c
        { o with runned := true }).setControl t k) [.began c]
  | steady {s₁ es} (hsteady : Steady s s₁)
      (hevents : ∀ c, .created c ∉ es ∧ .began c ∉ es) : Starting s t a s₁ es

theorem Control.ne_start {k : Control} (h : k.idle = true) : k ≠ .start := by
  rintro rfl
  cases h

theorem Effect.starting (h : Effect s t a s' evs) : Starting s t a s' evs := by
  cases h with
  | create function => exact .create function
  | spawn hact ho hrunned => exact .spawn hact ho hrunned
  | begin ht hfrom hctx ho hidle => exact .begin ht hfrom hctx ho (Control.ne_start hidle)
  | enter _ _ _ hfrom _ hcalm =>
      have hfrom₁ := (congrFun hcalm.control t).trans hfrom
      exact .steady (hcalm.steady.trans (steady_setControl hfrom₁ (by nofun))) (by simp)
  | pthreadJoin hfrom _ _ hth =>
      exact .steady ((steady_joined hth).trans (steady_setControl hfrom (by nofun))) (by simp)
  | finish hfrom hrecord hcalm hidle =>
      have hsteady := (steady_recordJoined hrecord).trans hcalm.steady
      have hfrom₁ := (congrFun hcalm.control t).trans ((recordJoined_control hrecord).trans hfrom)
      exact .steady (hsteady.trans (steady_setControl hfrom₁ (Control.ne_start hidle))) (by simp)
  | quiet hfrom _ hcalm hidle =>
      have hfrom₁ := (congrFun hcalm.control t).trans hfrom
      exact .steady (hcalm.steady.trans (steady_setControl hfrom₁ (Control.ne_start hidle)))
        (by simp)

/-! ## Well-formed states -/

/-- What has an address or a thread id was given it, and `_pid` names a thread of the
object. -/
structure WellFormed (s : State) : Prop where
  cothread : ∀ {c o}, s.cothread c = some o → c < s.nextCothread
  ctx : ∀ {p c}, s.ctx p = some c → p < s.nextPid
  control : ∀ {p k}, s.control (some p) = some k → p < s.nextPid
  pid : ∀ {c o p}, s.cothread c = some o → o.pid = some p → s.ctx p = some c

theorem wellFormed_init : WellFormed State.init := ⟨nofun, nofun, nofun, nofun⟩

theorem State.ctx_pthreadCreate (s : State) (c : CothreadId) (o : CothreadBase)
    (detached : Bool) :
    (s.pthreadCreate c o detached).ctx = Function.update s.ctx s.nextPid (some c) := by
  funext p
  by_cases h : p = s.nextPid
  · simp [ctx, pthreadCreate, h]
  · simp [ctx, pthreadCreate, h]

theorem WellFormed.createCothread (h : WellFormed s) (function : Bool) :
    WellFormed (s.createCothread function) where
  cothread := by
    intro c o ho
    rcases update_eq_some.mp ho with ⟨rfl, _⟩ | ⟨_, ho⟩
    · exact Nat.lt_succ_self s.nextCothread
    · exact Nat.lt_succ_of_lt (h.cothread ho)
  ctx := h.ctx
  control := h.control
  pid := by
    intro c o p ho hpid
    rcases update_eq_some.mp ho with ⟨_, rfl⟩ | ⟨_, ho⟩
    · cases hpid
    · exact h.pid ho hpid

theorem WellFormed.pthreadCreate (h : WellFormed s) {o' : CothreadBase} (detached : Bool)
    (ho : s.cothread c = some o) : WellFormed (s.pthreadCreate c o' detached) where
  cothread := by
    intro d o₁ ho₁
    rcases update_eq_some.mp ho₁ with ⟨rfl, _⟩ | ⟨_, ho₁⟩
    · exact h.cothread ho
    · exact h.cothread ho₁
  ctx := by
    intro p d hp
    rw [State.ctx_pthreadCreate] at hp
    rcases update_eq_some.mp hp with ⟨rfl, _⟩ | ⟨_, hp⟩
    · exact Nat.lt_succ_self s.nextPid
    · exact Nat.lt_succ_of_lt (h.ctx hp)
  control := by
    intro p k hp
    rcases update_eq_some.mp hp with ⟨hnew, _⟩ | ⟨_, hp⟩
    · exact Option.some.inj hnew ▸ Nat.lt_succ_self s.nextPid
    · exact Nat.lt_succ_of_lt (h.control hp)
  pid := by
    intro d o₁ p ho₁ hpid
    rw [State.ctx_pthreadCreate]
    rcases update_eq_some.mp ho₁ with ⟨rfl, rfl⟩ | ⟨_, ho₁⟩
    · rw [← Option.some.inj hpid, Function.update_self]
    · have hctx := h.pid ho₁ hpid
      rwa [Function.update_of_ne (Nat.ne_of_lt (h.ctx hctx))]

theorem WellFormed.begin (h : WellFormed s) {p : Pid} {k : Control}
    (hfrom : s.control (some p) = some .start) (ho : s.cothread c = some o) :
    WellFormed (((s.set (some p) (some c)).setCothread c
      { o with runned := true }).setControl (some p) k) where
  cothread := by
    intro d o₁ ho₁
    rcases update_eq_some.mp ho₁ with ⟨rfl, _⟩ | ⟨_, ho₁⟩
    · exact h.cothread ho
    · exact h.cothread ho₁
  ctx := h.ctx
  control := by
    intro q k' hq
    rcases update_eq_some.mp hq with ⟨hqp, _⟩ | ⟨_, hq⟩
    · rw [Option.some.inj hqp]
      exact h.control hfrom
    · exact h.control hq
  pid := by
    intro d o₁ q ho₁ hpid
    rcases update_eq_some.mp ho₁ with ⟨rfl, rfl⟩ | ⟨_, ho₁⟩
    · exact h.pid ho hpid
    · exact h.pid ho₁ hpid

theorem WellFormed.steady (h : WellFormed s) (hsteady : Steady s s') : WellFormed s' where
  cothread := by
    intro c o' ho'
    obtain ⟨o, ho, _⟩ := hsteady.cothread ho'
    rw [hsteady.nextCothread]
    exact h.cothread ho
  ctx := by
    intro p c hp
    rw [hsteady.ctx] at hp
    rw [hsteady.nextPid]
    exact h.ctx hp
  control := by
    intro p k' hp
    obtain ⟨k, hk⟩ := hsteady.control hp
    rw [hsteady.nextPid]
    exact h.control hk
  pid := by
    intro c o' p ho' hp
    obtain ⟨o, ho, hpid⟩ := hsteady.cothread ho'
    rw [hsteady.ctx]
    exact h.pid ho (hpid.symm.trans hp)

theorem WellFormed.step (h : WellFormed s) (hstart : Starting s t a s' evs) :
    WellFormed s' := by
  cases hstart with
  | create function => exact h.createCothread function
  | spawn _ ho _ => exact h.pthreadCreate _ ho
  | begin ht hfrom _ ho _ =>
      subst ht
      exact h.begin hfrom ho
  | steady hsteady _ => exact h.steady hsteady

end BoostCoro.Cothread
