import BoostCoro.Cothread.Threads
/-!
# A cothread starts one thread

`resume` returns when `_runned` is set, but it is the new thread that sets it. Only
where no `resume` comes between a `pthread_create` and the first step of the thread is
there one thread for each cothread.
-/

namespace BoostCoro.Cothread

/-- A cothread is resumed that has no thread yet, or whose thread has begun. -/
def Settled (s : State) : ThreadId × Act → Prop
  | (_, .user (.resume c _)) => ∀ o ∈ s.cothread c, o.pid = none ∨ o.runned = true
  | _ => True

instance (s : State) (i : ThreadId × Act) : Decidable (Settled s i) := by
  obtain ⟨t, a⟩ := i
  cases a with
  | lib => exact instDecidableTrue
  | user u => cases u <;> unfold Settled <;> infer_instance

variable {s s' : State} {t : ThreadId} {a : Act} {c : CothreadId} {evs tr : List Obs}

/-- One thread for each cothread that was started, which `_pid` names. -/
structure OneThread (tr : List Obs) (s : State) : Prop where
  created_le : ∀ c, tr.count (.created c) ≤ 1
  began_le : ∀ c, tr.count (.began c) ≤ 1
  created : ∀ {p c}, s.ctx p = some c → .created c ∈ tr
  alone : ∀ {p q c}, s.ctx p = some c → s.ctx q = some c → p = q
  named : ∀ {c o}, s.cothread c = some o → .created c ∈ tr → o.pid ≠ none
  pending : ∀ {p c}, s.ctx p = some c → s.control (some p) = some .start → .began c ∉ tr
  known : ∀ {c}, .created c ∈ tr → c < s.nextCothread
  of_began : ∀ {c}, .began c ∈ tr → .created c ∈ tr

theorem oneThread_init : OneThread [] State.init :=
  ⟨by simp, by simp, nofun, nofun, nofun, nofun, nofun, nofun⟩

namespace OneThread

theorem createCothread (h : OneThread tr s) (function : Bool) :
    OneThread tr (s.createCothread function) where
  created_le := h.created_le
  began_le := h.began_le
  created := h.created
  alone := h.alone
  named := by
    intro c o ho hcreated
    rcases update_eq_some.mp ho with ⟨rfl, _⟩ | ⟨_, ho⟩
    · exact absurd (h.known hcreated) (Nat.lt_irrefl _)
    · exact h.named ho hcreated
  pending := h.pending
  known := fun hcreated => Nat.lt_succ_of_lt (h.known hcreated)
  of_began := h.of_began

theorem spawn (h : OneThread tr s) (hwf : WellFormed s) {o o' : CothreadBase} {detached : Bool}
    (ho : s.cothread c = some o) (hpid : o.pid = none) :
    OneThread (tr ++ [.created c]) (s.pthreadCreate c o' detached) := by
  have hnew : .created c ∉ tr := fun hc => h.named ho hc hpid
  have hctx := State.ctx_pthreadCreate s c o' detached
  constructor
  case created_le =>
    intro d
    by_cases hdc : d = c
    · subst hdc
      simp [List.count_eq_zero.mpr hnew]
    · have := h.created_le d
      simpa [List.count_singleton, Ne.symm hdc] using this
  case began_le =>
    intro d
    simpa [List.count_singleton] using h.began_le d
  case created =>
    intro p d hp
    rw [hctx] at hp
    rcases update_eq_some.mp hp with ⟨_, rfl⟩ | ⟨_, hp⟩
    · exact List.mem_append_right _ List.mem_cons_self
    · exact List.mem_append_left _ (h.created hp)
  case alone =>
    -- a thread of `c` that is not the new one would have its creation in `tr`
    intro p q d hp hq
    rw [hctx] at hp hq
    rcases update_eq_some.mp hp with ⟨hp', rfl⟩ | ⟨_, hp⟩
    · rcases update_eq_some.mp hq with ⟨hq', _⟩ | ⟨_, hq⟩
      · exact hp'.trans hq'.symm
      · exact absurd (h.created hq) hnew
    · rcases update_eq_some.mp hq with ⟨_, rfl⟩ | ⟨_, hq⟩
      · exact absurd (h.created hp) hnew
      · exact h.alone hp hq
  case named =>
    intro d o₁ ho₁ hd
    rcases update_eq_some.mp ho₁ with ⟨_, rfl⟩ | ⟨hdc, ho₁⟩
    · exact Option.some_ne_none _
    · exact h.named ho₁ (by simpa [hdc] using hd)
  case pending =>
    intro p d hp hstart
    rw [hctx] at hp
    have hbegan : .began d ∉ tr := by
      rcases update_eq_some.mp hp with ⟨_, rfl⟩ | ⟨hp', hp⟩
      · exact fun hb => hnew (h.of_began hb)
      · exact h.pending hp (by simpa [hp'] using hstart)
    simpa using hbegan
  case known =>
    intro d hd
    rcases List.mem_append.mp hd with hd | hd
    · exact h.known hd
    · have hdc : d = c := by simpa using hd
      rw [hdc]
      exact hwf.cothread ho
  case of_began =>
    intro d hd
    have hb : .began d ∈ tr := by simpa using hd
    exact List.mem_append_left _ (h.of_began hb)

theorem begin (h : OneThread tr s) {p : Pid} {o : CothreadBase} {k : Control}
    (hfrom : s.control (some p) = some .start) (hctx : s.ctx p = some c)
    (ho : s.cothread c = some o) (hk : k ≠ .start) :
    OneThread (tr ++ [.began c]) (((s.set (some p) (some c)).setCothread c
      { o with runned := true }).setControl (some p) k) := by
  have hnew := h.pending hctx hfrom
  constructor
  case created_le =>
    intro d
    simpa [List.count_singleton] using h.created_le d
  case began_le =>
    intro d
    by_cases hdc : d = c
    · subst hdc
      simp [List.count_eq_zero.mpr hnew]
    · have := h.began_le d
      simpa [List.count_singleton, Ne.symm hdc] using this
  case created => exact fun hq => List.mem_append_left _ (h.created hq)
  case alone => exact h.alone
  case named =>
    intro d o₁ ho₁ hd
    have hd' : .created d ∈ tr := by simpa using hd
    rcases update_eq_some.mp ho₁ with ⟨rfl, rfl⟩ | ⟨_, ho₁⟩
    · show o.pid ≠ none
      exact h.named ho hd'
    · exact h.named ho₁ hd'
  case pending =>
    intro q d hq hstart
    rcases update_eq_some.mp hstart with ⟨_, hbad⟩ | ⟨hqp, hstart⟩
    · exact absurd hbad hk
    · have hdc : d ≠ c := by
        rintro rfl
        exact hqp (congrArg some (h.alone hq hctx))
      simpa [hdc] using h.pending hq hstart
  case known =>
    intro d hd
    exact h.known (by simpa using hd)
  case of_began =>
    intro d hd
    rcases List.mem_append.mp hd with hd | hd
    · exact List.mem_append_left _ (h.of_began hd)
    · have hdc : d = c := by simpa using hd
      exact List.mem_append_left _ (hdc ▸ h.created hctx)

theorem steady (h : OneThread tr s) (hsteady : Steady s s')
    (hevents : ∀ c, .created c ∉ evs ∧ .began c ∉ evs) : OneThread (tr ++ evs) s' := by
  have hcreated {d : CothreadId} : .created d ∈ tr ++ evs ↔ .created d ∈ tr := by
    simp [hevents d]
  have hbegan {d : CothreadId} : .began d ∈ tr ++ evs ↔ .began d ∈ tr := by
    simp [hevents d]
  constructor
  case created_le =>
    intro d
    rw [List.count_append, List.count_eq_zero.mpr (hevents d).1]
    exact h.created_le d
  case began_le =>
    intro d
    rw [List.count_append, List.count_eq_zero.mpr (hevents d).2]
    exact h.began_le d
  case created => exact fun hp => hcreated.mpr (h.created (hsteady.ctx ▸ hp))
  case alone => exact fun hp hq => h.alone (hsteady.ctx ▸ hp) (hsteady.ctx ▸ hq)
  case named =>
    intro d o' ho' hd
    obtain ⟨o, ho, hpid⟩ := hsteady.cothread ho'
    rw [hpid]
    exact h.named ho (hcreated.mp hd)
  case pending =>
    intro p d hp hstart
    rw [hbegan]
    exact h.pending (hsteady.ctx ▸ hp) (hsteady.start hstart)
  case known =>
    intro d hd
    rw [hsteady.nextCothread]
    exact h.known (hcreated.mp hd)
  case of_began => exact fun hd => hcreated.mpr (h.of_began (hbegan.mp hd))

theorem step (h : OneThread tr s) (hwf : WellFormed s) (hok : Settled s (t, a))
    (hstart : Starting s t a s' evs) : OneThread (tr ++ evs) s' := by
  cases hstart with
  | create function =>
      rw [List.append_nil]
      exact h.createCothread function
  | spawn hact ho hrunned =>
      subst hact
      have hpid := (hok _ ho).resolve_right (by simp [hrunned])
      exact h.spawn hwf ho hpid
  | begin ht hfrom hctx ho hk =>
      subst ht
      exact h.begin hfrom hctx ho hk
  | steady hsteady hevents => exact h.steady hsteady hevents

end OneThread

theorem settled_or_spawns {i : ThreadId × Act} (h : ¬ Settled s i)
    (hstep : s.step i = some (.ok (s', evs))) :
    ∃ c o p, s.cothread c = some o ∧ o.pid = some p ∧ evs = [.created c] := by
  obtain ⟨t, a⟩ := i
  unfold Settled at h
  split at h
  next c option hi =>
    obtain ⟨rfl, rfl⟩ := Prod.mk.inj hi
    simp only [not_forall, not_or] at h
    obtain ⟨o, ho, hpid, hrunned⟩ := h
    obtain ⟨p, hp⟩ := Option.ne_none_iff_exists'.mp hpid
    refine ⟨c, o, p, ho, hp, ?_⟩
    unfold State.step at hstep
    split at hstep
    next hact => cases hact
    next hact =>
      obtain rfl := Act.user.inj hact
      have hcall : s.resume c option = .ok (s', evs) := Option.some.inj hstep
      rw [State.resume, State.find_ok.mpr ho, Fallible.ok_bind, if_neg hrunned] at hcall
      exact (Prod.mk.inj (Except.ok.inj hcall)).2.symm
    next hact => cases hact
    next => cases hstep
  next => exact absurd trivial h

/-- In every run that resumes only settled cothreads, `pthread_create` was called at most
once for each, its function ran at most once, and `_pid` names the thread that was started;
a `resume` of a cothread that is not settled calls `pthread_create` a second time. -/
theorem starts_one_thread (h : RunOf Settled tr s) :
    (∀ c, tr.count (.created c) ≤ 1 ∧ tr.count (.began c) ≤ 1 ∧
      ∀ o, s.cothread c = some o → ∀ p, o.pid = some p ↔ s.ctx p = some c) ∧
    ∀ i s' evs, ¬ Settled s i → s.step i = some (.ok (s', evs)) →
      ∃ c, (tr ++ evs).count (.created c) = 2 := by
  have hboth : WellFormed s ∧ OneThread tr s := by
    refine Transition.Run.invariant_trace (I := fun tr s => WellFormed s ∧ OneThread tr s) ?_ h
      ⟨wellFormed_init, oneThread_init⟩
    rintro tr s ⟨t, a⟩ s' evs ⟨hwf, hone⟩ hok hstep
    have hstart := (State.step_effect hstep).starting
    exact ⟨hwf.step hstart, hone.step hwf hok hstart⟩
  obtain ⟨hwf, hone⟩ := hboth
  refine ⟨fun c => ⟨hone.created_le c, hone.began_le c, fun o ho p => ⟨hwf.pid ho, fun hp => ?_⟩⟩,
    fun ⟨t, a⟩ s' evs hnot hstep => ?_⟩
  · obtain ⟨q, hq⟩ := Option.ne_none_iff_exists'.mp (hone.named ho (hone.created hp))
    rw [hq, hone.alone (hwf.pid ho hq) hp]
  · obtain ⟨c, o, p, ho, hp, rfl⟩ := settled_or_spawns hnot hstep
    have hcreated := List.count_pos_iff.mpr (hone.created (hwf.pid ho hp))
    have hle := hone.created_le c
    refine ⟨c, ?_⟩
    rw [List.count_append, List.count_singleton_self]
    omega

/-- Main resumes cothread 0, and again when its thread is in `execute`. -/
def resumesSettled : List (ThreadId × Act) :=
  [(none, .user (.create true)), (none, .user (.resume 0 .new)), (some 0, .lib),
    (none, .user (.resume 0 .new))]

theorem starts_one_thread_resumed : ∃ tr s, RunOf Settled tr s ∧
    tr = [.created 0, .began 0] ∧ tr.count (.created 0) ≤ 1 := by
  have hrun : RunOf Settled (Transition.after State.step Settled State.init resumesSettled).2
      (Transition.after State.step Settled State.init resumesSettled).1 :=
    Transition.run_after (by decide +kernel)
  exact ⟨_, _, hrun, by decide +kernel, ((starts_one_thread hrun).1 0).1⟩

/-- Main resumes cothread 0 twice before its thread has begun. -/
def resumesTwice : List (ThreadId × Act) :=
  [(none, .user (.create true)), (none, .user (.resume 0 .new)),
    (none, .user (.resume 0 .new)), (some 0, .lib), (some 1, .lib)]

/-- Two threads run the function of cothread 0, and `_pid` names the second. -/
theorem resumed_twice_runs_twice : ∃ tr s, RunOf (fun _ _ => True) tr s ∧
    tr.count (.created 0) = 2 ∧ tr.count (.began 0) = 2 ∧ s.ctx 0 = some 0 ∧ s.ctx 1 = some 0 ∧
      (s.cothread 0).map CothreadBase.pid = some (some 1) := by
  have hrun : RunOf (fun _ _ => True)
      (Transition.after State.step (fun _ _ => True) State.init resumesTwice).2
      (Transition.after State.step (fun _ _ => True) State.init resumesTwice).1 :=
    Transition.run_after (by decide +kernel)
  exact ⟨_, _, hrun, by decide +kernel, by decide +kernel, by decide +kernel, by decide +kernel,
    by decide +kernel⟩

end BoostCoro.Cothread
