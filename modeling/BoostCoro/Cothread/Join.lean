import BoostCoro.Cothread.Start
/-!
# A cothread is joined once

`p->join(c)` sets `_joined` when `pthread_join` has returned; `c->join()` never does.
Where no join follows one that does not set it, and no two joins of a cothread overlap,
`pthread_join` is called once for each.
-/

namespace BoostCoro.Cothread

/-- The cothread of the join that the thread is in. -/
def Control.joinOf : Control → Option CothreadId
  | .calling c _ _ => some c
  | .joining c _ _ _ => some c
  | _ => none

namespace State

def joinOf (s : State) (t : ThreadId) : Option CothreadId := (s.control t).bind Control.joinOf

def threads (s : State) : List ThreadId := none :: (List.range s.nextPid).map some

end State

/-- A join that finds `_joined` clear comes neither after a join of the same cothread that
does not set it nor while another is in progress. -/
def JoinsApart (q : State × List Obs) (i : ThreadId × Act) : Prop :=
  ∀ c ∈ q.1.joinTarget i.1 i.2, ∀ o ∈ q.1.cothread c, o.joined = false →
    .joined c false ∉ q.2 ∧ ∀ t ∈ q.1.threads, q.1.joinOf t ≠ some c

instance (q : State × List Obs) (i : ThreadId × Act) : Decidable (JoinsApart q i) := by
  unfold JoinsApart
  infer_instance

/-- The runs whose steps all obey `ok`, which sees the events so far. -/
abbrev PastRunOf (ok : State × List Obs → ThreadId × Act → Prop) (tr : List Obs) (s : State) :
    Prop := Transition.Run (Transition.withPast State.step) ok (State.init, []) tr (s, tr)

/-- How often `pthread_join` was called for `c`. -/
def joins (c : CothreadId) (tr : List Obs) : Nat :=
  tr.count (.joined c true) + tr.count (.joined c false)

variable {s s' s₁ s₂ : State} {t u : ThreadId} {a : Act} {c : CothreadId} {o : CothreadBase}
  {records : Bool} {loop : Option Loop} {evs tr : List Obs}

@[simp] theorem joins_append (c : CothreadId) (tr evs : List Obs) :
    joins c (tr ++ evs) = joins c tr + joins c evs := by
  unfold joins
  rw [List.count_append, List.count_append]
  omega

theorem joins_pos : 0 < joins c tr ↔ ∃ records, .joined c records ∈ tr := by
  unfold joins
  constructor
  · intro h
    by_cases htrue : .joined c true ∈ tr
    · exact ⟨true, htrue⟩
    · rw [List.count_eq_zero.mpr htrue, Nat.zero_add] at h
      exact ⟨false, List.count_pos_iff.mp h⟩
  · rintro ⟨_ | _, hmem⟩
    · have := List.count_pos_iff.mpr hmem
      omega
    · have := List.count_pos_iff.mpr hmem
      omega

theorem joins_joined (c d : CothreadId) (records : Bool) :
    joins d [.joined c records] = if c = d then 1 else 0 := by
  by_cases h : c = d
  · subst h
    cases records <;> simp [joins]
  · cases records <;> simp [joins, h]

/-! ## The invariant -/

/-- A cothread whose `_joined` is clear was not joined with a record of it, but for the join
in progress; and a thread that is about to join is the first to. -/
structure JoinInv (tr : List Obs) (s : State) : Prop where
  joins_le : ∀ c, joins c tr ≤ 1
  alone : ∀ {t u c}, s.joinOf t = some c → s.joinOf u = some c → t = u
  before : ∀ {t c records loop}, s.control t = some (.calling c records loop) → joins c tr = 0
  recorded : ∀ {c o}, s.cothread c = some o → o.joined = false → .joined c true ∈ tr →
    ∃ t p loop, s.control t = some (.joining c p true loop)
  marked : ∀ {p th}, s.pthread p = some th → th.joined = true → 0 < joins th.ctx tr
  known : ∀ {c}, 0 < joins c tr → c < s.nextCothread

theorem joinInv_init : JoinInv [] State.init where
  joins_le := by simp [joins]
  alone := by
    intro t u c ht
    cases t with
    | none => cases ht
    | some p => cases ht
  before := by simp [joins]
  recorded := nofun
  marked := nofun
  known := by simp [joins]

/-- A step in which no thread comes into a join or out of one. -/
structure Aside (s s' : State) : Prop where
  nextCothread : s.nextCothread ≤ s'.nextCothread
  control : ∀ t, s'.control t = s.control t ∨ s.joinOf t = none ∧ s'.joinOf t = none
  cothread : ∀ {c o'}, s'.cothread c = some o' → o'.joined = false →
    c = s.nextCothread ∨ ∃ o, s.cothread c = some o ∧ o.joined = false
  pthread : ∀ {p th'}, s'.pthread p = some th' → th'.joined = true → s.pthread p = some th'

theorem Aside.joinOf (h : Aside s s') (t : ThreadId) : s'.joinOf t = s.joinOf t := by
  rcases h.control t with hkept | ⟨hold, hnew⟩
  · rw [State.joinOf, hkept, State.joinOf]
  · rw [hold, hnew]

theorem Aside.of_joinOf (h : Aside s s') {k : Control} (hk : k.joinOf = some c) :
    s'.control t = some k ↔ s.control t = some k := by
  rcases h.control t with hkept | ⟨hold, hnew⟩
  · rw [hkept]
  · constructor
    · intro ht
      rw [State.joinOf, ht, Option.bind_some, hk] at hnew
      cases hnew
    · intro ht
      rw [State.joinOf, ht, Option.bind_some, hk] at hold
      cases hold

theorem JoinInv.aside (h : JoinInv tr s) (haside : Aside s s') (hevs : ∀ c, joins c evs = 0) :
    JoinInv (tr ++ evs) s' where
  joins_le := by simpa [hevs] using h.joins_le
  alone := by
    intro t u c ht hu
    rw [haside.joinOf] at ht hu
    exact h.alone ht hu
  before := by
    intro t c records loop ht
    simpa [hevs] using h.before ((haside.of_joinOf rfl).mp ht)
  recorded := by
    intro c o' ho' hjoined hmem
    have hmem : .joined c true ∈ tr := by
      refine (List.mem_append.mp hmem).resolve_right fun hnew => ?_
      exact absurd (joins_pos.mpr ⟨true, hnew⟩) (by simp [hevs])
    rcases haside.cothread ho' hjoined with rfl | ⟨o, ho, hold⟩
    · exact absurd (h.known (joins_pos.mpr ⟨true, hmem⟩)) (Nat.lt_irrefl _)
    · obtain ⟨t, p, loop, ht⟩ := h.recorded ho hold hmem
      exact ⟨t, p, loop, (haside.of_joinOf rfl).mpr ht⟩
  marked := by
    intro p th hth hjoined
    simpa [hevs] using h.marked (haside.pthread hth hjoined) hjoined
  known := by
    intro c hc
    have hold : 0 < joins c tr := by simpa [hevs] using hc
    exact Nat.lt_of_lt_of_le (h.known hold) haside.nextCothread

/-! ## The steps in which no thread is in a join -/

theorem Control.joinOf_idle {k : Control} (h : k.idle = true) : k.joinOf = none := by
  cases k with
  | user | draining | exited => rfl
  | start | calling | joining => cases h

theorem State.joinOf_setControl (s : State) (t : ThreadId) (k : Control) (u : ThreadId) :
    (s.setControl t k).joinOf u = if u = t then k.joinOf else s.joinOf u := by
  unfold joinOf
  by_cases h : u = t
  · subst h
    simp
  · simp [h]

theorem State.joinOf_eq {k : Control} (h : s.control t = some k) : s.joinOf t = k.joinOf := by
  rw [joinOf, h, Option.bind_some]

theorem Calm.aside (h : Calm s s') : Aside s s' where
  nextCothread := Nat.le_of_eq h.nextCothread.symm
  control := fun t => .inl (congrFun h.control t)
  cothread := by
    intro c o' ho' hjoined'
    obtain ⟨o, ho, _, hjoined, _⟩ := h.cothread ho'
    exact .inr ⟨o, ho, hjoined.symm.trans hjoined'⟩
  pthread := fun hth _ => by rwa [h.pthread] at hth

theorem aside_setControl {k k' : Control} (hfrom : s.control t = some k)
    (hk : k.joinOf = none) (hk' : k'.joinOf = none) : Aside s (s.setControl t k') where
  nextCothread := Nat.le_refl _
  control := by
    intro u
    by_cases h : u = t
    · subst h
      exact .inr ⟨(State.joinOf_eq hfrom).trans hk,
        by rw [State.joinOf_setControl, if_pos rfl, hk']⟩
    · exact .inl (by simp [h])
  cothread := fun ho hjoined => .inr ⟨_, ho, hjoined⟩
  pthread := fun hth _ => hth

theorem Aside.trans (h : Aside s s₁) (hnext : s₁.nextCothread = s.nextCothread)
    (h' : Aside s₁ s₂) : Aside s s₂ where
  nextCothread := Nat.le_trans h.nextCothread h'.nextCothread
  control := by
    intro t
    rcases h.control t with hkept | ⟨hold, hnew⟩
    · rcases h'.control t with hkept' | ⟨hold', hnew'⟩
      · exact .inl (hkept'.trans hkept)
      · refine .inr ⟨?_, hnew'⟩
        rw [State.joinOf, ← hkept]
        exact hold'
    · exact .inr ⟨hold, (h'.joinOf t).trans hnew⟩
  cothread := by
    intro c o₂ ho₂ hjoined₂
    rcases h'.cothread ho₂ hjoined₂ with hc | ⟨o₁, ho₁, hjoined₁⟩
    · exact .inl (hc.trans hnext)
    · exact h.cothread ho₁ hjoined₁
  pthread := fun hth hjoined => h.pthread (h'.pthread hth hjoined) hjoined

theorem aside_createCothread (s : State) (function : Bool) :
    Aside s (s.createCothread function) where
  nextCothread := Nat.le_succ _
  control := fun t => .inl rfl
  cothread := by
    intro c o' ho' hjoined
    rcases update_eq_some.mp ho' with ⟨hc, _⟩ | ⟨_, ho'⟩
    · exact .inl hc
    · exact .inr ⟨o', ho', hjoined⟩
  pthread := fun hth _ => hth

theorem aside_pthreadCreate (hwf : WellFormed s) {o' : CothreadBase} (detached : Bool)
    (ho : s.cothread c = some o) (hkept : o'.joined = false → o.joined = false) :
    Aside s (s.pthreadCreate c o' detached) where
  nextCothread := Nat.le_refl _
  control := by
    intro t
    by_cases ht : t = some s.nextPid
    · subst ht
      have hnone : s.control (some s.nextPid) = none := by
        by_contra hsome
        obtain ⟨k, hk⟩ := Option.ne_none_iff_exists'.mp hsome
        exact Nat.lt_irrefl _ (hwf.control hk)
      refine .inr ⟨by rw [State.joinOf, hnone]; rfl, ?_⟩
      simp [State.joinOf, Control.joinOf]
    · exact .inl (by simp [ht])
  cothread := by
    intro d o₁ ho₁ hjoined
    right
    rcases update_eq_some.mp ho₁ with ⟨rfl, rfl⟩ | ⟨_, ho₁⟩
    · exact ⟨o, ho, hkept hjoined⟩
    · exact ⟨o₁, ho₁, hjoined⟩
  pthread := by
    intro p th hth hjoined
    rcases update_eq_some.mp hth with ⟨_, rfl⟩ | ⟨_, hth⟩
    · cases hjoined
    · exact hth

theorem aside_begin {k : Control} (hfrom : s.control t = some .start)
    (ho : s.cothread c = some o) (hk : k.joinOf = none) :
    Aside s (((s.set t (some c)).setCothread c { o with runned := true }).setControl t k) := by
  have hobject : Aside s ((s.set t (some c)).setCothread c { o with runned := true }) := by
    refine ⟨Nat.le_refl _, fun _ => .inl rfl, fun {d o'} ho' hjoined => .inr ?_, fun hth _ => hth⟩
    rcases update_eq_some.mp ho' with ⟨rfl, rfl⟩ | ⟨_, ho'⟩
    · exact ⟨o, ho, hjoined⟩
    · exact ⟨o', ho', hjoined⟩
  exact hobject.trans rfl (aside_setControl hfrom rfl hk)

/-! ## The steps of a join -/

/-- A flag that is clear after a join that returns was clear before, and the join did not
record it. -/
theorem State.recordJoined_clear {d : CothreadId} {o' : CothreadBase}
    (h : s.recordJoined c records = .ok s') (ho' : s'.cothread d = some o')
    (hjoined : o'.joined = false) :
    ∃ o, s.cothread d = some o ∧ o.joined = false ∧ (d = c → records = false) := by
  rcases State.recordJoined_cothread h with ⟨rfl, hrecords⟩ | ⟨o, ho, _, rfl⟩
  · exact ⟨o', ho', hjoined, fun _ => hrecords⟩
  · rcases update_eq_some.mp ho' with ⟨_, rfl⟩ | ⟨hdc, ho'⟩
    · cases hjoined
    · exact ⟨o', ho', hjoined, fun hd => absurd hd hdc⟩

theorem WellFormed.mem_threads (h : WellFormed s) (ht : s.joinOf t = some c) :
    t ∈ s.threads := by
  obtain ⟨k, hk, _⟩ := Option.bind_eq_some_iff.mp ht
  cases t with
  | none => exact List.mem_cons_self
  | some p =>
      have hp := List.mem_range.mpr (h.control hk)
      exact List.mem_cons_of_mem _ (List.mem_map_of_mem hp)

namespace JoinInv

theorem enter (h : JoinInv tr s) (hidle : s.joinOf t = none)
    (hout : ∀ u, s.joinOf u ≠ some c) (hzero : joins c tr = 0) :
    JoinInv tr (s.setControl t (.calling c records loop)) where
  joins_le := h.joins_le
  alone := by
    intro u u' d hu hu'
    rw [State.joinOf_setControl] at hu hu'
    split at hu
    next hut =>
      obtain rfl := Option.some.inj hu
      split at hu'
      next hut' => exact hut.trans hut'.symm
      next => exact absurd hu' (hout u')
    next =>
      split at hu'
      next =>
        obtain rfl := Option.some.inj hu'
        exact absurd hu (hout u)
      next => exact h.alone hu hu'
  before := by
    intro u d r l hu
    rcases update_eq_some.mp hu with ⟨_, hcalling⟩ | ⟨_, hu⟩
    · cases hcalling
      exact hzero
    · exact h.before hu
  recorded := by
    intro d o ho hjoined hmem
    obtain ⟨u, p, l, hu⟩ := h.recorded ho hjoined hmem
    have hut : u ≠ t := by
      rintro rfl
      rw [State.joinOf_eq hu] at hidle
      cases hidle
    exact ⟨u, p, l, by simpa [hut] using hu⟩
  marked := h.marked
  known := h.known

theorem pthreadJoin (h : JoinInv tr s) (hwf : WellFormed s) {p : Pid} {th : Pthread}
    (hfrom : s.control t = some (.calling c records loop)) (ho : s.cothread c = some o)
    (hpid : o.pid = some p) (hth : s.pthread p = some th) :
    JoinInv (tr ++ [.joined c records]) (State.setControl { s with
      pthread := Function.update s.pthread p (some { th with joined := true }) } t
        (.joining c p records loop)) where
  joins_le := by
    intro d
    rw [joins_append, joins_joined]
    split
    next hcd =>
      have hzero := h.before hfrom
      rw [← hcd]
      omega
    next => exact h.joins_le d
  alone := by
    have hkept (u : ThreadId) : (State.setControl { s with
        pthread := Function.update s.pthread p (some { th with joined := true }) } t
          (.joining c p records loop)).joinOf u = s.joinOf u := by
      rw [State.joinOf_setControl]
      split
      next hut => rw [hut, State.joinOf_eq hfrom]; rfl
      next => rfl
    intro u u' d hu hu'
    rw [hkept] at hu hu'
    exact h.alone hu hu'
  before := by
    intro u d r l hu
    rcases update_eq_some.mp hu with ⟨_, hbad⟩ | ⟨hut, hold⟩
    · cases hbad
    have hcd : c ≠ d := by
      rintro rfl
      exact hut (h.alone (State.joinOf_eq hold) (State.joinOf_eq hfrom))
    rw [joins_append, joins_joined, if_neg hcd, h.before hold]
  recorded := by
    intro d o' ho' hjoined hmem
    rcases List.mem_append.mp hmem with hold | hnew
    · obtain ⟨u, q, l, hu⟩ := h.recorded ho' hjoined hold
      have hut : u ≠ t := by
        rintro rfl
        rw [hfrom] at hu
        cases hu
      exact ⟨u, q, l, by simpa [hut] using hu⟩
    · obtain ⟨rfl, rfl⟩ : d = c ∧ records = true := by simpa [eq_comm] using hnew
      exact ⟨t, p, loop, by simp⟩
  marked := by
    intro q th' hth' hjoined
    rw [joins_append]
    rcases update_eq_some.mp hth' with ⟨_, rfl⟩ | ⟨_, hth'⟩
    · have hctx : s.ctx p = some c := hwf.pid ho hpid
      have hc : th.ctx = c := by simpa [State.ctx, hth] using hctx
      rw [hc, joins_joined, if_pos rfl]
      omega
    · have := h.marked hth' hjoined
      omega
  known := by
    intro d hd
    rw [joins_append, joins_joined] at hd
    by_cases hcd : c = d
    · rw [← hcd]
      exact hwf.cothread ho
    · exact h.known (by simpa [hcd] using hd)

theorem finish (h : JoinInv tr s) {p : Pid} {k : Control}
    (hfrom : s.control t = some (.joining c p records loop))
    (hrecord : s.recordJoined c records = .ok s') (hk : k.joinOf = none) :
    JoinInv tr (s'.setControl t k) := by
  have hcontrol (u : ThreadId) : s'.control u = s.control u := recordJoined_control hrecord
  have hsteady := steady_recordJoined hrecord
  have hpthread : s'.pthread = s.pthread := by
    rcases State.recordJoined_cothread hrecord with ⟨rfl, _⟩ | ⟨o, _, _, rfl⟩ <;> rfl
  have hjoinOf {u d} (hu : (s'.setControl t k).joinOf u = some d) :
      u ≠ t ∧ s.joinOf u = some d := by
    rw [State.joinOf_setControl] at hu
    split at hu
    next => rw [hk] at hu; cases hu
    next hut => exact ⟨hut, by rwa [State.joinOf, ← hcontrol u]⟩
  constructor
  case joins_le => exact h.joins_le
  case alone => exact fun hu hu' => h.alone (hjoinOf hu).2 (hjoinOf hu').2
  case before =>
    intro u d r l hu
    have hut : u ≠ t := (hjoinOf (State.joinOf_eq hu)).1
    have hold : s'.control u = some (.calling d r l) := by simpa [hut] using hu
    exact h.before ((hcontrol u).symm.trans hold)
  case recorded =>
    -- the join that returns is not the one that keeps `d` recorded
    intro d o' ho' hjoined hmem
    obtain ⟨o, ho, hold, hother⟩ := State.recordJoined_clear hrecord ho' hjoined
    obtain ⟨u, q, l, hu⟩ := h.recorded ho hold hmem
    have hut : u ≠ t := by
      rintro rfl
      rw [hfrom] at hu
      cases hu
      cases hother rfl
    exact ⟨u, q, l, by simpa [hut, hcontrol u] using hu⟩
  case marked => exact fun hth hjoined => h.marked (hpthread ▸ hth) hjoined
  case known =>
    intro d hd
    show d < s'.nextCothread
    rw [hsteady.nextCothread]
    exact h.known hd

theorem step (h : JoinInv tr s) (hwf : WellFormed s) (hok : JoinsApart (s, tr) (t, a))
    (heffect : Effect s t a s' evs) : JoinInv (tr ++ evs) s' := by
  cases heffect with
  | create function => exact h.aside (aside_createCothread s function) (by simp [joins])
  | @spawn c o option _ ho _ =>
      refine h.aside (aside_pthreadCreate hwf _ ho fun hjoined => ?_) (by simp [joins])
      cases hdetached : option.detached with
      | true =>
          rw [hdetached] at hjoined
          cases hjoined
      | false => simpa [hdetached] using hjoined
  | begin _ hfrom _ ho hidle =>
      exact h.aside (aside_begin hfrom ho (Control.joinOf_idle hidle)) (by simp [joins])
  | @enter c o records loop s₁ k htarget ho hjoined hfrom hidle hcalm =>
      rw [List.append_nil]
      obtain ⟨hnot, hothers⟩ := hok c htarget o ho hjoined
      have hout : ∀ u, s.joinOf u ≠ some c := fun u hu => hothers u (hwf.mem_threads hu) hu
      have hzero : joins c tr = 0 := by
        by_contra hpos
        obtain ⟨records, hmem⟩ := joins_pos.mp (Nat.pos_of_ne_zero hpos)
        cases records with
        | false => exact hnot hmem
        | true =>
            obtain ⟨u, p, l, hu⟩ := h.recorded ho hjoined hmem
            exact hout u (State.joinOf_eq hu)
      have hcalm' := hcalm.aside
      have h₁ : JoinInv (tr ++ []) s₁ := h.aside hcalm' (by simp [joins])
      rw [List.append_nil] at h₁
      refine h₁.enter ?_ (fun u => hcalm'.joinOf u ▸ hout u) hzero
      rw [hcalm'.joinOf, State.joinOf_eq hfrom, Control.joinOf_idle hidle]
  | pthreadJoin hfrom ho hpid hth _ => exact h.pthreadJoin hwf hfrom ho hpid hth
  | finish hfrom hrecord hcalm hidle =>
      have hleft := h.finish hfrom hrecord (Control.joinOf_idle hidle)
      exact hleft.aside (hcalm.setControl _ _).aside (by simp [joins])
  | quiet hfrom hidle hcalm hidle' =>
      have hfrom' := (congrFun hcalm.control t).trans hfrom
      have hmove := aside_setControl hfrom' (Control.joinOf_idle hidle) (Control.joinOf_idle hidle')
      exact h.aside (hcalm.aside.trans hcalm.nextCothread hmove) (by simp [joins])

end JoinInv

/-- In every run in which no join of a cothread follows one that does not set `_joined` and
none overlaps another, `pthread_join` was called at most once for each cothread, and no step
fails because a thread was joined before. -/
theorem joined_once (h : PastRunOf JoinsApart tr s) :
    (∀ c, joins c tr ≤ 1) ∧ ∀ i, s.step i ≠ some (.error (.assertJoin .joined)) := by
  have hboth : WellFormed s ∧ JoinInv tr s := by
    refine Transition.Run.invariant
      (I := fun q : State × List Obs => WellFormed q.1 ∧ JoinInv q.2 q.1) ?_ h
      ⟨wellFormed_init, joinInv_init⟩
    rintro ⟨s, past⟩ ⟨t, a⟩ ⟨s', past'⟩ evs ⟨hwf, hinv⟩ hok hstep
    obtain ⟨hstep, rfl⟩ := Transition.withPast_ok.mp hstep
    have heffect := State.step_effect hstep
    exact ⟨hwf.step heffect.starting, hinv.step hwf hok heffect⟩
  obtain ⟨hwf, hinv⟩ := hboth
  refine ⟨hinv.joins_le, fun i hfault => ?_⟩
  obtain ⟨c, records, loop, o, p, th, hfrom, ho, hpid, hth, hjoined⟩ := State.step_rejoins hfault
  have hctx : some th.ctx = some c := by
    rw [← hwf.pid ho hpid, State.ctx, hth]
    rfl
  have hpos := hinv.marked hth hjoined
  rw [Option.some.inj hctx, hinv.before hfrom] at hpos
  exact Nat.lt_irrefl 0 hpos

/-- Main starts cothread 0, which starts its child 1; the end of `execute` joins 1, and main
joins 0. -/
def joinsTree : List (ThreadId × Act) :=
  [(none, .user (.create true)), (none, .user (.resume 0 .new)), (some 0, .lib),
    (some 0, .user (.create true)), (some 0, .user (.thisChild 1)),
    (some 0, .user (.resume 1 .new)), (some 0, .user (.return 0)), (some 1, .lib),
    (some 0, .lib), (some 0, .lib), (some 1, .user (.return 1)), (some 1, .lib),
    (some 0, .lib), (some 0, .lib), (none, .user (.thisJoin (some 0))), (none, .lib),
    (none, .lib)]

theorem joined_once_tree : ∃ tr s, PastRunOf JoinsApart tr s ∧
    tr = [.created 0, .began 0, .created 1, .began 1, .joined 1 true, .joined 0 false] ∧
      joins 0 tr ≤ 1 ∧ joins 1 tr ≤ 1 := by
  have hrun := @Transition.pastRun_after _ _ _ _ State.step JoinsApart _ State.init joinsTree
    (by decide +kernel)
  exact ⟨_, _, hrun, by decide +kernel, (joined_once hrun).1 0, (joined_once hrun).1 1⟩

/-- Main attaches cothread 0, joins it by name, and then joins its children. -/
def joinsTwice : List (ThreadId × Act) :=
  [(none, .user (.create true)), (none, .user (.thisChild 0)), (none, .user (.resume 0 .new)),
    (some 0, .lib), (some 0, .user (.return 0)), (some 0, .lib),
    (none, .user (.thisJoin (some 0))), (none, .lib), (none, .lib),
    (none, .user (.thisJoin none)), (none, .lib)]

/-- `this_cothread::join()` joins a second time the cothread that main has joined. -/
theorem joined_twice_fails : ∃ tr s, RunOf Settled tr s ∧
    tr = [.created 0, .began 0, .joined 0 false] ∧
      s.step (none, .lib) = some (.error (.assertJoin .joined)) := by
  have hfault : Transition.faultAfter State.step Settled State.init joinsTwice (none, .lib) =
      some (.assertJoin .joined) := by decide +kernel
  obtain ⟨hrun, hstep⟩ := Transition.fault_after hfault
  exact ⟨_, _, hrun, by decide +kernel, hstep⟩

end BoostCoro.Cothread
