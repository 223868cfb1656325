import BoostCoro.Cothread.State
import Mathlib.Tactic.SplitIfs
/-!
# What a step of a thread does

Every accepted step is one of seven: it creates an object or a thread, begins
`execute`, is past the test of a join, calls `pthread_join`, returns from it, or does
nothing that matters to threads.
-/

namespace BoostCoro.Cothread

open Fallible

/-- In no join, and past the start. -/
def Control.idle : Control → Bool
  | .user | .draining _ | .exited => true
  | _ => false

namespace State

/-- The front of the list of `self`. -/
def front (s : State) (self : CothreadId) : Option CothreadId :=
  (s.cothread self).bind fun o => o.cothreadChilds.head?

def thisFront (s : State) (t : ThreadId) : Option CothreadId :=
  match s.get t with
  | some self => s.front self
  | none => (s.coreData t).mainCothreadChilds.head?

/-- The cothread whose `_joined` is tested in a step. -/
def joinTarget (s : State) (t : ThreadId) : Act → Option CothreadId
  | .user (.join self child) => some (child.getD self)
  | .user (.thisJoin child) => child
  | .lib =>
    match s.control t with
    | some (.draining .join) => s.thisFront t
    | some (.draining (.execute cothread)) => s.front cothread
    | _ => none
  | _ => none

end State

/-! ## Steps that keep the threads -/

/-- The threads stay as they are, and so do the flags of the objects that are left. -/
structure Calm (s s' : State) : Prop where
  pthread : s'.pthread = s.pthread
  nextPid : s'.nextPid = s.nextPid
  nextCothread : s'.nextCothread = s.nextCothread
  control : s'.control = s.control
  cothread : ∀ {c o'}, s'.cothread c = some o' →
    ∃ o, s.cothread c = some o ∧ o'.runned = o.runned ∧ o'.joined = o.joined ∧ o'.pid = o.pid

variable {s s' s₁ s₂ : State} {t : ThreadId} {a : Act} {c self : CothreadId}
  {o : CothreadBase} {records : Bool} {loop : Option Loop} {evs : List Obs}

theorem Calm.refl (s : State) : Calm s s := ⟨rfl, rfl, rfl, rfl, fun h => ⟨_, h, rfl, rfl, rfl⟩⟩

theorem Calm.trans (h : Calm s s₁) (h' : Calm s₁ s₂) : Calm s s₂ where
  pthread := h'.pthread.trans h.pthread
  nextPid := h'.nextPid.trans h.nextPid
  nextCothread := h'.nextCothread.trans h.nextCothread
  control := h'.control.trans h.control
  cothread := by
    intro c o₂ ho₂
    obtain ⟨o₁, ho₁, hrunned₁, hjoined₁, hpid₁⟩ := h'.cothread ho₂
    obtain ⟨o, ho, hrunned, hjoined, hpid⟩ := h.cothread ho₁
    exact ⟨o, ho, hrunned₁.trans hrunned, hjoined₁.trans hjoined, hpid₁.trans hpid⟩

theorem Calm.setControl (h : Calm s s') (t : ThreadId) (k : Control) :
    Calm (s.setControl t k) (s'.setControl t k) where
  pthread := h.pthread
  nextPid := h.nextPid
  nextCothread := h.nextCothread
  control := by rw [State.setControl, State.setControl, h.control]
  cothread := h.cothread

namespace State

theorem find_ok : s.find c = .ok o ↔ s.cothread c = some o := by
  unfold find
  cases s.cothread c with
  | none => simp
  | some o' => simp

theorem setControl_self {k : Control} (h : s.control t = some k) : s.setControl t k = s := by
  unfold setControl
  rw [← h, Function.update_eq_self]

theorem calm_setCothread {o' : CothreadBase} (ho : s.cothread c = some o)
    (hrunned : o'.runned = o.runned) (hjoined : o'.joined = o.joined) (hpid : o'.pid = o.pid) :
    Calm s (s.setCothread c o') where
  pthread := rfl
  nextPid := rfl
  nextCothread := rfl
  control := rfl
  cothread := by
    intro d o'' h
    rcases update_eq_some.mp h with ⟨rfl, rfl⟩ | ⟨_, h⟩
    · exact ⟨o, ho, hrunned, hjoined, hpid⟩
    · exact ⟨o'', h, rfl, rfl, rfl⟩

theorem calm_setCoreData (s : State) (t : ThreadId) (d : CoreData) : Calm s (s.setCoreData t d) :=
  ⟨rfl, rfl, rfl, rfl, fun h => ⟨_, h, rfl, rfl, rfl⟩⟩

theorem destroyCothread_calm (h : s.destroyCothread c = .ok s') : Calm s s' := by
  obtain ⟨_, _, h⟩ := bind_eq_ok.mp h
  obtain rfl := Except.ok.inj h
  refine ⟨rfl, rfl, rfl, rfl, fun {d o'} hd => ?_⟩
  by_cases hdc : d = c
  · simp [hdc] at hd
  · simp only [Function.update_of_ne hdc] at hd
    exact ⟨o', hd, rfl, rfl, rfl⟩

theorem child_calm (h : s.child self c = .ok s') : Calm s s' := by
  obtain ⟨o, ho, h⟩ := bind_eq_ok.mp h
  obtain rfl := Except.ok.inj h
  exact calm_setCothread (find_ok.mp ho) rfl rfl rfl

theorem thisChild_calm (h : s.thisChild t c = .ok s') : Calm s s' := by
  unfold thisChild at h
  split at h
  · exact child_calm h
  · obtain rfl := Except.ok.inj h
    exact calm_setCoreData s t _

theorem popChild_ok {co : Option CothreadId} (h : s.popChild self = .ok (co, s')) :
    co = s.front self ∧ Calm s s' := by
  obtain ⟨o, ho, h⟩ := bind_eq_ok.mp h
  obtain ⟨rfl, rfl⟩ := Prod.mk.inj (Except.ok.inj h)
  have hlive := find_ok.mp ho
  exact ⟨by rw [front, hlive, Option.bind_some], calm_setCothread hlive rfl rfl rfl⟩

theorem thisPopChild_ok {co : Option CothreadId} (h : s.thisPopChild t = .ok (co, s')) :
    co = s.thisFront t ∧ Calm s s' := by
  cases hself : s.get t with
  | some self =>
      rw [thisPopChild, hself] at h
      rw [thisFront, hself]
      exact popChild_ok h
  | none =>
      rw [thisPopChild, hself] at h
      rw [thisFront, hself]
      obtain ⟨rfl, rfl⟩ := Prod.mk.inj (Except.ok.inj h)
      exact ⟨rfl, calm_setCoreData s t _⟩

theorem joinReturns_ok (h : s.joinReturns t c loop = .ok s') :
    ∃ s₁ k, Calm s s₁ ∧ k.idle = true ∧ s' = s₁.setControl t k := by
  cases loop with
  | none => exact ⟨s, .user, .refl s, rfl, (Except.ok.inj h).symm⟩
  | some loop =>
      obtain ⟨s₁, hdestroy, h⟩ := bind_eq_ok.mp h
      exact ⟨s₁, .draining loop, destroyCothread_calm hdestroy, rfl, (Except.ok.inj h).symm⟩

theorem testJoined_ok (h : s.testJoined t c records loop = .ok s') :
    (∃ s₁ k, Calm s s₁ ∧ k.idle = true ∧ s' = s₁.setControl t k) ∨
      ∃ o, s.cothread c = some o ∧ o.joined = false ∧
        s' = s.setControl t (.calling c records loop) := by
  obtain ⟨o, ho, h⟩ := bind_eq_ok.mp h
  split at h
  next => exact .inl (joinReturns_ok h)
  next hjoined => exact .inr ⟨o, find_ok.mp ho, by simpa using hjoined, (Except.ok.inj h).symm⟩

end State

/-! ## The effect of a step -/

/-- The step `a` of the thread `t`, from `s` to `s'` with the events `evs`. -/
inductive Effect (s : State) (t : ThreadId) (a : Act) : State → List Obs → Prop
  | create (function : Bool) (hfrom : s.control t = some .user) :
      Effect s t a (s.createCothread function) []
  | spawn {c o option} (hact : a = .user (.resume c option))
      (ho : s.cothread c = some o) (hrunned : o.runned = false) :
      Effect s t a (s.pthreadCreate c
        (if option.detached then { o with joined := true } else o) option.attrDetached)
        [.created c]
  | begin {p c o k} (ht : t = some p) (hfrom : s.control t = some .start)
      (hctx : s.ctx p = some c) (ho : s.cothread c = some o) (hidle : k.idle = true) :
      Effect s t a (((s.set t (some c)).setCothread c
        { o with runned := true }).setControl t k) [.began c]
  | enter {c o records loop s₁ k} (htarget : s.joinTarget t a = some c)
      (ho : s.cothread c = some o) (hjoined : o.joined = false)
      (hfrom : s.control t = some k) (hidle : k.idle = true) (hcalm : Calm s s₁) :
      Effect s t a (s₁.setControl t (.calling c records loop)) []
  | pthreadJoin {c records loop o p th}
      (hfrom : s.control t = some (.calling c records loop)) (ho : s.cothread c = some o)
      (hpid : o.pid = some p) (hth : s.pthread p = some th) (hjoined : th.joined = false) :
      Effect s t a (State.setControl { s with
        pthread := Function.update s.pthread p (some { th with joined := true }) } t
          (.joining c p records loop)) [.joined c records]
  | finish {c p records loop k s₁ s₂}
      (hfrom : s.control t = some (.joining c p records loop))
      (hrecord : s.recordJoined c records = .ok s₁) (hcalm : Calm s₁ s₂)
      (hidle : k.idle = true) : Effect s t a (s₂.setControl t k) []
  | quiet {s₁ k k'} (hfrom : s.control t = some k) (hidle : k.idle = true)
      (hcalm : Calm s s₁) (hidle' : k'.idle = true) : Effect s t a (s₁.setControl t k') []

namespace Effect

theorem of_calm (hfrom : s.control t = some .user) (hcalm : Calm s s') : Effect s t a s' [] := by
  have hkept := State.setControl_self ((congrFun hcalm.control t).trans hfrom)
  rw [← hkept]
  exact quiet hfrom rfl hcalm rfl

theorem of_testJoined {k : Control} (hfrom : s.control t = some k) (hidle : k.idle = true)
    (hcalm : Calm s s₁) (htarget : s.joinTarget t a = some c)
    (h : s₁.testJoined t c records loop = .ok s') : Effect s t a s' [] := by
  rcases State.testJoined_ok h with ⟨s₂, k', hcalm₂, hidle', rfl⟩ | ⟨o₁, ho₁, hjoined₁, rfl⟩
  · exact quiet hfrom hidle (hcalm.trans hcalm₂) hidle'
  · obtain ⟨o, ho, _, hjoined, _⟩ := hcalm.cothread ho₁
    exact enter htarget ho (hjoined.symm.trans hjoined₁) hfrom hidle hcalm

end Effect

namespace State

theorem silent_ok {x : Except Fault State} (h : silent x = .ok (s', evs)) :
    x = .ok s' ∧ evs = [] := by
  obtain ⟨s₁, hx, h⟩ := bind_eq_ok.mp h
  obtain ⟨rfl, rfl⟩ := Prod.mk.inj (Except.ok.inj h)
  exact ⟨hx, rfl⟩

theorem map_snd_ok {α : Type} {x : Except Fault (α × State)} (h : x.map Prod.snd = .ok s') :
    ∃ b, x = .ok (b, s') := by
  cases x with
  | error e => cases h
  | ok r => exact ⟨r.1, congrArg Except.ok (Prod.ext rfl (Except.ok.inj h))⟩

theorem resume_effect {option : CothreadOption} (hfrom : s.control t = some .user)
    (h : s.resume c option = .ok (s', evs)) :
    Effect s t (.user (.resume c option)) s' evs := by
  obtain ⟨o, ho, h⟩ := bind_eq_ok.mp h
  split at h
  next =>
    obtain ⟨rfl, rfl⟩ := Prod.mk.inj (Except.ok.inj h)
    exact .of_calm hfrom (.refl s)
  next hrunned =>
    obtain ⟨rfl, rfl⟩ := Prod.mk.inj (Except.ok.inj h)
    exact .spawn rfl (find_ok.mp ho) (by simpa using hrunned)

theorem thisJoin_effect {child : Option CothreadId} (hfrom : s.control t = some .user)
    (h : s.thisJoin t child = .ok s') : Effect s t (.user (.thisJoin child)) s' [] := by
  cases child with
  | none =>
      obtain rfl := Except.ok.inj h
      exact .quiet hfrom rfl (.refl s) rfl
  | some child =>
      unfold thisJoin at h
      dsimp only at h
      split at h
      · exact .of_testJoined hfrom rfl (.refl s) rfl h
      · exact .of_testJoined hfrom rfl (.refl s) rfl h

theorem call_effect {u : UserAct} (hfrom : s.control t = some .user)
    (h : s.call t u = .ok (s', evs)) : Effect s t (.user u) s' evs := by
  cases u with
  | create function =>
      obtain ⟨rfl, rfl⟩ := Prod.mk.inj (Except.ok.inj h)
      exact .create function hfrom
  | destroy c =>
      obtain ⟨hcall, rfl⟩ := silent_ok h
      exact .of_calm hfrom (destroyCothread_calm hcall)
  | resume c option => exact resume_effect hfrom h
  | child self c =>
      obtain ⟨hcall, rfl⟩ := silent_ok h
      exact .of_calm hfrom (child_calm hcall)
  | popChild self =>
      obtain ⟨hcall, rfl⟩ := silent_ok h
      obtain ⟨co, hpop⟩ := map_snd_ok hcall
      exact .of_calm hfrom (popChild_ok hpop).2
  | thisChild c =>
      obtain ⟨hcall, rfl⟩ := silent_ok h
      exact .of_calm hfrom (thisChild_calm hcall)
  | thisPopChild =>
      obtain ⟨hcall, rfl⟩ := silent_ok h
      obtain ⟨co, hpop⟩ := map_snd_ok hcall
      exact .of_calm hfrom (thisPopChild_ok hpop).2
  | join self child =>
      obtain ⟨hcall, rfl⟩ := silent_ok h
      cases child with
      | none => exact .of_testJoined hfrom rfl (.refl s) rfl hcall
      | some child => exact .of_testJoined hfrom rfl (.refl s) rfl hcall
  | thisJoin child =>
      obtain ⟨hcall, rfl⟩ := silent_ok h
      exact thisJoin_effect hfrom hcall
  | «return» cothread =>
      obtain ⟨rfl, rfl⟩ := Prod.mk.inj (Except.ok.inj h)
      exact .quiet hfrom rfl (.refl s) rfl

theorem drain_effect {l : Loop} (hfrom : s.control t = some (.draining l))
    (h : s.drain t l = .ok s') : Effect s t .lib s' [] := by
  cases l with
  | join =>
      obtain ⟨⟨co, s₁⟩, hpop, h⟩ := bind_eq_ok.mp h
      obtain ⟨hfront, hcalm⟩ := thisPopChild_ok hpop
      cases co with
      | none =>
          obtain rfl := Except.ok.inj h
          exact .quiet hfrom rfl hcalm rfl
      | some co =>
          refine .of_testJoined hfrom rfl hcalm ?_ h
          simp only [joinTarget, hfrom]
          exact hfront.symm
  | execute cothread =>
      obtain ⟨⟨co, s₁⟩, hpop, h⟩ := bind_eq_ok.mp h
      obtain ⟨hfront, hcalm⟩ := popChild_ok hpop
      cases co with
      | none =>
          obtain rfl := Except.ok.inj h
          exact .quiet hfrom rfl (hcalm.trans (calm_setCoreData s₁ t _)) rfl
      | some co =>
          refine .of_testJoined hfrom rfl hcalm ?_ h
          simp only [joinTarget, hfrom]
          exact hfront.symm

theorem pthreadJoin_ok {pid : Option Pid} {p : Pid} (h : s.pthreadJoin t pid = .ok (p, s')) :
    ∃ th, pid = some p ∧ s.pthread p = some th ∧ th.joined = false ∧
      s' = { s with
        pthread := Function.update s.pthread p (some { th with joined := true }) } := by
  unfold pthreadJoin at h
  split at h
  next => cases h
  next q =>
    split at h
    next => cases h
    next th hth =>
      split_ifs at h with hdetached hjoined hself
      obtain ⟨rfl, rfl⟩ := Prod.mk.inj (Except.ok.inj h)
      exact ⟨th, rfl, hth, by simpa using hjoined, rfl⟩

theorem proceed_effect {k : Control} (hfrom : s.control t = some k)
    (h : s.proceed t k = some (.ok (s', evs))) : Effect s t .lib s' evs := by
  cases k with
  | user => cases h
  | exited => cases h
  | start =>
      obtain ⟨c, hctx, h⟩ := Option.map_eq_some_iff.mp h
      obtain ⟨p, ht, hctx⟩ := Option.bind_eq_some_iff.mp hctx
      obtain ⟨o, ho, h⟩ := bind_eq_ok.mp h
      obtain ⟨rfl, rfl⟩ := Prod.mk.inj (Except.ok.inj h)
      exact .begin ht hfrom hctx (find_ok.mp ho) (by split <;> rfl)
  | calling c records loop =>
      obtain ⟨o, ho, h⟩ := bind_eq_ok.mp (Option.some.inj h)
      split at h
      next => cases h
      next p s₁ hjoin =>
        obtain ⟨th, hpid, hth, hjoined, rfl⟩ := pthreadJoin_ok hjoin
        obtain ⟨rfl, rfl⟩ := Prod.mk.inj (Except.ok.inj h)
        exact .pthreadJoin hfrom (find_ok.mp ho) hpid hth hjoined
  | joining c p records loop =>
      simp only [proceed] at h
      split at h
      next =>
        obtain ⟨hend, rfl⟩ := silent_ok (Option.some.inj h)
        obtain ⟨s₁, hrecord, hreturns⟩ := bind_eq_ok.mp hend
        obtain ⟨s₂, k, hcalm, hidle, rfl⟩ := joinReturns_ok hreturns
        exact .finish hfrom hrecord hcalm hidle
      next => cases h
  | draining l =>
      obtain ⟨hturn, rfl⟩ := silent_ok (Option.some.inj h)
      exact drain_effect hfrom hturn

theorem step_effect {i : ThreadId × Act} (h : s.step i = some (.ok (s', evs))) :
    Effect s i.1 i.2 s' evs := by
  obtain ⟨t, a⟩ := i
  unfold step at h
  split at h
  next hfrom hact =>
    split at h
    next =>
      simp only at hact
      subst hact
      exact call_effect hfrom (Option.some.inj h)
    next => cases h
  next hfrom hact =>
    simp only at hact
    subst hact
    exact call_effect hfrom (Option.some.inj h)
  next hfrom hact =>
    simp only at hact
    subst hact
    exact proceed_effect hfrom h
  next => cases h

/-! ## How a step fails -/

theorem find_faults (s : State) (c : CothreadId) : Faults (· = .useAfterFree) (s.find c) := by
  unfold find
  cases s.cothread c with
  | none => exact Faults.error.mpr rfl
  | some o => exact .ok o

theorem silent_faults {x : Except Fault State} (h : Faults (· = .useAfterFree) x) :
    Faults (· = .useAfterFree) (silent x) := h.bind fun s' _ => .ok (s', [])

theorem map_snd_faults {α : Type} {x : Except Fault (α × State)}
    (h : Faults (· = .useAfterFree) x) : Faults (· = .useAfterFree) (x.map Prod.snd) := by
  cases x with
  | error e => exact Faults.error.mpr (h e rfl)
  | ok r => exact .ok r.2

theorem destroyCothread_faults (s : State) (c : CothreadId) :
    Faults (· = .useAfterFree) (s.destroyCothread c) := (s.find_faults c).bind fun _ _ => .ok _

theorem child_faults (s : State) (self c : CothreadId) :
    Faults (· = .useAfterFree) (s.child self c) := (s.find_faults self).bind fun _ _ => .ok _

theorem popChild_faults (s : State) (self : CothreadId) :
    Faults (· = .useAfterFree) (s.popChild self) := (s.find_faults self).bind fun _ _ => .ok _

theorem thisChild_faults (s : State) (t : ThreadId) (c : CothreadId) :
    Faults (· = .useAfterFree) (s.thisChild t c) := by
  unfold thisChild
  split
  · exact s.child_faults _ c
  · exact .ok _

theorem thisPopChild_faults (s : State) (t : ThreadId) :
    Faults (· = .useAfterFree) (s.thisPopChild t) := by
  unfold thisPopChild
  split
  · exact s.popChild_faults _
  · exact .ok _

theorem joinReturns_faults (s : State) (t : ThreadId) (c : CothreadId) (loop : Option Loop) :
    Faults (· = .useAfterFree) (s.joinReturns t c loop) := by
  cases loop with
  | none => exact .ok _
  | some loop => exact (s.destroyCothread_faults c).bind fun _ _ => .ok _

theorem testJoined_faults (s : State) (t : ThreadId) (c : CothreadId) (records : Bool)
    (loop : Option Loop) : Faults (· = .useAfterFree) (s.testJoined t c records loop) :=
  (s.find_faults c).bind fun _ _ =>
    .ite (fun _ => s.joinReturns_faults t c loop) (fun _ => .ok _)

theorem thisJoin_faults (s : State) (t : ThreadId) (child : Option CothreadId) :
    Faults (· = .useAfterFree) (s.thisJoin t child) := by
  cases child with
  | none => exact .ok _
  | some child =>
      unfold thisJoin
      dsimp only
      split
      · exact s.testJoined_faults t child true none
      · exact s.testJoined_faults t child false none

theorem recordJoined_faults (s : State) (c : CothreadId) (records : Bool) :
    Faults (· = .useAfterFree) (s.recordJoined c records) := by
  cases records with
  | false => exact .ok s
  | true => exact (s.find_faults c).bind fun _ _ => .ok _

theorem drain_faults (s : State) (t : ThreadId) (loop : Loop) :
    Faults (· = .useAfterFree) (s.drain t loop) := by
  cases loop with
  | join =>
      refine (s.thisPopChild_faults t).bind fun r _ => ?_
      obtain ⟨_ | co, s'⟩ := r
      · exact .ok _
      · exact s'.testJoined_faults t co false _
  | execute cothread =>
      refine (s.popChild_faults cothread).bind fun r _ => ?_
      obtain ⟨_ | co, s'⟩ := r
      · exact .ok _
      · exact s'.testJoined_faults t co true _

theorem call_faults (s : State) (t : ThreadId) (u : UserAct) :
    Faults (· = .useAfterFree) (s.call t u) := by
  cases u with
  | create function => exact .ok _
  | destroy c => exact silent_faults (s.destroyCothread_faults c)
  | resume c option =>
      exact (s.find_faults c).bind fun _ _ => .ite (fun _ => .ok _) (fun _ => .ok _)
  | child self c => exact silent_faults (s.child_faults self c)
  | popChild self => exact silent_faults (map_snd_faults (s.popChild_faults self))
  | thisChild c => exact silent_faults (s.thisChild_faults t c)
  | thisPopChild => exact silent_faults (map_snd_faults (s.thisPopChild_faults t))
  | join self child =>
      cases child with
      | none => exact silent_faults (s.testJoined_faults t self false none)
      | some child => exact silent_faults (s.testJoined_faults t child true none)
  | thisJoin child => exact silent_faults (s.thisJoin_faults t child)
  | «return» cothread => exact .ok _

theorem pthreadJoin_joined {pid : Option Pid}
    (h : s.pthreadJoin t pid = .error .joined) :
    ∃ p th, pid = some p ∧ s.pthread p = some th ∧ th.joined = true := by
  unfold pthreadJoin at h
  split at h
  next => cases h
  next p =>
    split at h
    next => cases h
    next th hth =>
      split_ifs at h with hdetached hjoined hself
      · cases h
      · exact ⟨p, th, rfl, hth, hjoined⟩
      · cases h

/-- The assertion that a thread was not joined fails in the call of `pthread_join` only. -/
theorem step_rejoins {i : ThreadId × Act}
    (h : s.step i = some (.error (.assertJoin .joined))) :
    ∃ c records loop o p th, s.control i.1 = some (.calling c records loop) ∧
      s.cothread c = some o ∧ o.pid = some p ∧ s.pthread p = some th ∧ th.joined = true := by
  have hother {x : Outcome} (hx : Faults (· = .useAfterFree) x) :
      x ≠ .error (.assertJoin .joined) := fun he => nomatch hx _ he
  obtain ⟨t, a⟩ := i
  unfold step at h
  split at h
  next =>
    split at h
    next => exact absurd (Option.some.inj h) (hother (s.call_faults t _))
    next => cases h
  next => exact absurd (Option.some.inj h) (hother (s.call_faults t _))
  next k hfrom _ =>
    cases k with
    | user => cases h
    | exited => cases h
    | start =>
        obtain ⟨c, _, h⟩ := Option.map_eq_some_iff.mp h
        exact absurd h (hother ((s.find_faults c).bind fun _ _ => .ok _))
    | calling c records loop =>
        have hcall : s.callJoin t c records loop = .error (.assertJoin .joined) := Option.some.inj h
        cases hlive : s.cothread c with
        | none =>
            rw [callJoin, find, hlive] at hcall
            cases hcall
        | some o =>
            rw [callJoin, find_ok.mpr hlive, ok_bind] at hcall
            split at hcall
            next e he =>
              cases hcall
              obtain ⟨p, th, hpid, hth, hjoined⟩ := pthreadJoin_joined he
              exact ⟨c, records, loop, o, p, th, hfrom, hlive, hpid, hth, hjoined⟩
            next => cases hcall
    | joining c p records loop =>
        simp only [proceed] at h
        split at h
        next =>
          refine absurd (Option.some.inj h) (hother (silent_faults ?_))
          exact (s.recordJoined_faults c records).bind fun s' _ => s'.joinReturns_faults t c loop
        next => cases h
    | draining loop =>
        exact absurd (Option.some.inj h) (hother (silent_faults (s.drain_faults t loop)))
  next => cases h

end State

end BoostCoro.Cothread
