import BoostCoro.Coroutine.Machine
import Mathlib.Data.List.Nodup
/-!
# The scheduling invariant

What holds of the scheduling state whatever the users of the API do: which calls
can stand on top of which, and how the state of a coroutine and the top of its
stack go together.
-/

namespace BoostCoro.Coroutine

/-! ## Stacks of calls -/

namespace Frame

/-- The calls in progress in context `x`. A wait can be for any coroutine. -/
def ownedBy (x : Ctx) : Frame → Prop
  | resume self _ _ => self = x
  | resumeChilds self _ _ _ => self = x
  | resumeAll => x = none
  | yield q _ => x = some q
  | execute c _ => x = some c
  | mget q => x = some q
  | wait _ _ _ => True

/-- The calls that `f` makes while it is in progress. -/
def mayCall : Frame → Frame → Prop
  | execute _ .body, resume _ _ _ => True
  | execute _ .body, resumeChilds _ _ _ _ => True
  | execute _ .body, yield _ _ => True
  | execute _ .body, mget _ => True
  | execute _ .body, wait _ _ _ => True
  | execute _ .childs, resumeChilds _ _ _ _ => True
  | mget _, yield _ _ => True
  | wait _ _ _, yield _ _ => True
  | yield _ .childs, resumeChilds _ _ _ _ => True
  | resumeAll, resumeChilds _ _ _ _ => True
  | resumeChilds _ _ _ (some c), resume _ d _ => d = c
  | resume _ c .transfer, resumeChilds _ cur _ _ => cur = some c
  | _, _ => False

/-- The calls at the bottom of the stack of a context. -/
def bottom : Ctx → Frame → Prop
  | none, resume _ _ _ => True
  | none, resumeChilds _ _ _ _ => True
  | none, resumeAll => True
  | none, wait _ _ _ => True
  | some _, execute _ _ => True
  | _, _ => False

/-- A frame from which control went to another context. -/
def away : Frame → Bool
  | resume _ _ .back => true
  | yield _ .back => true
  | _ => false

end Frame

/-- The frame that may stand on top of a stack. -/
def CalledBy (x : Ctx) : List Frame → Frame → Prop
  | [], f => f.bottom x
  | g :: _, f => g.mayCall f

/-- A well-formed stack of context `x`. -/
def Stacked (x : Ctx) : List Frame → Prop
  | [] => True
  | f :: rest => f.ownedBy x ∧ CalledBy x rest f ∧ Stacked x rest

/-! Where a call stands does not depend on how far it has come. -/

/-- The same call, at another place of its body. -/
inductive Frame.SameCall : Frame → Frame → Prop
  | resume {self self' : Ctx} {c : CoroId} {pc pc' : ResumePc} :
      SameCall (.resume self c pc) (.resume self' c pc')
  | resumeChilds {self self' cur : Ctx} {loop loop' : Nat} {child child' : Option CoroId} :
      SameCall (.resumeChilds self cur loop child) (.resumeChilds self' cur loop' child')
  | yield {q : CoroId} {pc pc' : YieldPc} : SameCall (.yield q pc) (.yield q pc')

theorem CalledBy.sameCall {x : Ctx} {rest : List Frame} {f f' : Frame} (hsame : f.SameCall f')
    (h : CalledBy x rest f) : CalledBy x rest f' := by
  cases rest with
  | nil => cases x <;> cases hsame <;> exact h
  | cons g rest =>
      -- `mayCall` looks at the function that is called, and of a `resume` at the coroutine
      cases g with
      | execute _ pc => cases pc <;> cases hsame <;> exact h
      | resume _ _ pc => cases pc <;> cases hsame <;> exact h
      | resumeChilds _ _ _ child => cases child <;> cases hsame <;> exact h
      | yield _ pc => cases pc <;> cases hsame <;> exact h
      | _ => cases hsame <;> exact h

theorem CalledBy.resume {x self self' : Ctx} {rest : List Frame} {c : CoroId} {pc pc' : ResumePc}
    (h : CalledBy x rest (.resume self c pc)) : CalledBy x rest (.resume self' c pc') :=
  h.sameCall .resume

theorem CalledBy.resumeChilds {x self self' cur : Ctx} {rest : List Frame} {loop loop' : Nat}
    {child child' : Option CoroId} (h : CalledBy x rest (.resumeChilds self cur loop child)) :
    CalledBy x rest (.resumeChilds self' cur loop' child') :=
  h.sameCall .resumeChilds

theorem CalledBy.yield {x : Ctx} {rest : List Frame} {q : CoroId} {pc pc' : YieldPc}
    (h : CalledBy x rest (.yield q pc)) : CalledBy x rest (.yield q pc') :=
  h.sameCall .yield

theorem CalledBy.execute {x : Ctx} {c : CoroId} {pc pc' : ExecutePc}
    (h : CalledBy x [] (.execute c pc)) : CalledBy x [] (.execute c pc') := by
  cases x <;> exact h

namespace Stacked

variable {x : Ctx} {f g : Frame} {rest : List Frame}

theorem owned (h : Stacked x (f :: rest)) : f.ownedBy x := h.1

theorem calledBy (h : Stacked x (f :: rest)) : CalledBy x rest f := h.2.1

theorem tail (h : Stacked x (f :: rest)) : Stacked x rest := h.2.2

theorem cons (hown : f.ownedBy x) (hcall : CalledBy x rest f) (h : Stacked x rest) :
    Stacked x (f :: rest) := ⟨hown, hcall, h⟩

/-- Only `execute` is at the bottom of the stack of a coroutine. -/
theorem eq_execute_of_singleton {c : CoroId} (h : Stacked (some c) [f]) :
    ∃ pc, f = .execute c pc := by
  have hbot : f.bottom (some c) := h.calledBy
  have hown : f.ownedBy (some c) := h.owned
  cases f with
  | execute d pc =>
      obtain rfl : c = d := Option.some.inj hown
      exact ⟨pc, rfl⟩
  | _ => exact absurd hbot id

/-- `execute` stands on nothing. -/
theorem execute_bottom {c : CoroId} {pc : ExecutePc}
    (h : Stacked x (.execute c pc :: rest)) : rest = [] := by
  cases rest with
  | nil => rfl
  | cons g rest =>
      have hcall : g.mayCall (.execute c pc) := h.calledBy
      cases g with
      | execute _ pc' => cases pc' <;> exact absurd hcall id
      | resume _ _ pc' => cases pc' <;> exact absurd hcall id
      | resumeChilds _ _ _ child => cases child <;> exact absurd hcall id
      | yield _ pc' => cases pc' <;> exact absurd hcall id
      | _ => exact absurd hcall id

/-- Below a call that is not `execute`, a coroutine has its `execute`. -/
theorem rest_ne_nil {c : CoroId} (h : Stacked (some c) (f :: rest))
    (hf : ∀ pc, f ≠ .execute c pc) : rest ≠ [] := by
  intro hrest
  rw [hrest] at h
  obtain ⟨pc, hpc⟩ := h.eq_execute_of_singleton
  exact hf pc hpc

end Stacked

/-! ## The invariant -/

structure SchedInv (s : Sched) : Prop where
  nodup : s.pool.Nodup
  current : s.currentCoroutine = s.running
  live : ∀ c, s.running = some c → c ∈ s.pool
  stat : ∀ c ∈ s.pool, s.stat c = coroStatInit ∨ s.stat c = coroStatWait ∨
    s.stat c = coroStatBusy ∨ s.stat c = coroStatDone
  busy : ∀ c ∈ s.pool, s.stat c = coroStatBusy ↔ s.running = some c
  stacked : ∀ x, Stacked x (s.stack x)
  /-- no context has been made for a coroutine in INIT, and for no other -/
  fresh : ∀ c ∈ s.pool, s.stat c = coroStatInit ↔ s.stack (some c) = []
  /-- a coroutine in WAIT waits for control to come back -/
  parked : ∀ c ∈ s.pool, s.stat c = coroStatWait →
    ∃ f rest, s.stack (some c) = f :: rest ∧ f.away = true
  finished : ∀ c ∈ s.pool, s.stat c = coroStatDone →
    s.stack (some c) = [.execute c .back]
  mainParked : s.running ≠ none →
    ∃ d rest, s.stack none = .resume none d .back :: rest
  preNe : ∀ c, s.coroPre c ≠ some c

theorem schedInv_init : SchedInv Sched.init where
  nodup := List.nodup_nil
  current := rfl
  live := fun _ h => nomatch h
  stat := fun _ h => absurd h List.not_mem_nil
  busy := fun _ h => absurd h List.not_mem_nil
  stacked := fun _ => trivial
  fresh := fun _ h => absurd h List.not_mem_nil
  parked := fun _ h => absurd h List.not_mem_nil
  finished := fun _ h => absurd h List.not_mem_nil
  mainParked := fun h => absurd rfl h
  preNe := fun _ h => nomatch h

/-! ## Switches of context, in full -/

namespace Sched

/-- What `transfer` to `c` from the running context does. -/
def switchTo (s : Sched) (c : CoroId) : Sched :=
  { s with
    stat :=
      match s.running with
      | none => Function.update s.stat c coroStatBusy
      | some p => Function.update (Function.update s.stat c coroStatBusy) p coroStatWait
    coroPre := Function.update s.coroPre c s.running
    currentCoroutine := some c
    running := some c
    stack :=
      if s.stack (some c) = [] then
        Function.update s.stack (some c) [.execute c .entry]
      else s.stack }

/-- What `transfer_pre` of the running coroutine `c` does. -/
def switchBack (s : Sched) (c : CoroId) : Sched :=
  let stat := if s.stat c = coroStatBusy then Function.update s.stat c coroStatWait else s.stat
  { s with
    stat :=
      match s.coroPre c with
      | none => stat
      | some p => Function.update stat p coroStatBusy
    currentCoroutine := s.coroPre c
    running := s.coroPre c }

theorem push_setStack (s : Sched) (fs : List Frame) (f : Frame) :
    (s.setStack fs).push f = s.setStack (f :: fs) := by
  simp [push, setStack]

theorem checkLive_eq_ok {s : Sched} {c : CoroId} {u : Unit} :
    s.checkLive c = .ok u ↔ c ∈ s.pool := by
  unfold checkLive
  by_cases hc : c ∈ s.pool
  · simp [hc]
  · simp [hc]

theorem coroContext_eq (s : Sched) (c : CoroId) :
    s.coroContext c = { s with
      stack :=
        if s.stack (some c) = [] then
          Function.update s.stack (some c) [.execute c .entry]
        else s.stack } := by
  unfold coroContext
  split <;> rfl

theorem coroContext_of_ne_nil {s : Sched} {c : CoroId} (h : s.stack (some c) ≠ []) :
    s.coroContext c = s := by
  unfold coroContext
  rw [if_neg h]

/-- The context that is left keeps its stack. -/
theorem coroTransfer_eq {s : Sched} {prev next : Ctx} (h : s.running = prev) :
    s.coroTransfer prev next = { s with running := next } := by
  unfold coroTransfer
  rw [h, Function.update_eq_self]

/-- The two shifts of `transfer` take INIT and WAIT to BUSY. -/
theorem setStat_initToWait {s : Sched} {c : CoroId}
    (h : (s.initToWait c).stat c = coroStatWait) :
    (s.stat c = coroStatInit ∨ s.stat c = coroStatWait) ∧
      (s.initToWait c).setStat c ((s.initToWait c).stat c <<< 1) =
        s.setStat c coroStatBusy := by
  rw [h]
  unfold initToWait at h ⊢
  by_cases hinit : s.stat c = coroStatInit
  · rw [if_pos hinit]
    refine ⟨.inl hinit, ?_⟩
    simp only [setStat, Function.update_idem]
    rfl
  · rw [if_neg hinit] at h ⊢
    exact ⟨.inr h, rfl⟩

variable {s s' : Sched} {c : CoroId}

theorem transfer_running (hbusy : ∀ p, s.running = some p → s.stat p = coroStatBusy)
    (hstack : ∀ p, s.running = some p → s.stack (some p) ≠ [])
    (h : s.transfer c s.running = .ok s') :
    c ∈ s.pool ∧ (s.stat c = coroStatInit ∨ s.stat c = coroStatWait) ∧
      s' = s.switchTo c := by
  obtain ⟨_, hlive, h⟩ := Fallible.bind_eq_ok.mp h
  have hstat : (s.initToWait c).stat c = coroStatWait := by
    by_contra hne
    rw [if_pos hne] at h
    cases h
  rw [if_neg (not_not.mpr hstat), (setStat_initToWait hstat).2] at h
  refine ⟨checkLive_eq_ok.mp hlive, (setStat_initToWait hstat).1, ?_⟩
  cases hrun : s.running with
  | none =>
      rw [hrun] at h
      have hs' := Except.ok.inj h
      rw [coroTransfer_eq (by rw [coroContext_eq]; exact hrun), coroContext_eq] at hs'
      rw [← hs', switchTo, hrun]
      rfl
  | some p =>
      rw [hrun] at h
      obtain ⟨_, _, h⟩ := Fallible.bind_eq_ok.mp h
      have hs' := Except.ok.inj h
      have hpbusy : Function.update s.stat c coroStatBusy p = coroStatBusy := by
        by_cases hpc : p = c
        · rw [hpc, Function.update_self]
        · rw [Function.update_of_ne hpc, hbusy p hrun]
      rw [coroContext_of_ne_nil (c := p), coroTransfer_eq (by rw [coroContext_eq]; exact hrun),
        coroContext_eq] at hs'
      · rw [← hs', switchTo, hrun]
        simp only [setStat, hpbusy]
        rfl
      · exact hstack p hrun

/-- `transfer_pre` of the running coroutine. Only its resumer can fail the
assertion, and a resumer that passes it has a context. -/
theorem transferPre_running (hrun : s.running = some c)
    (hstack : ∀ x ∈ s.pool, s.stat x = coroStatWait → s.stack (some x) ≠ [])
    (hself : s.stack (some c) ≠ []) (h : s.transferPre c = .ok s') :
    (∀ p, s.coroPre c = some p → p ∈ s.pool ∧ (s.busyToWait c).stat p = coroStatWait) ∧
      s' = s.switchBack c := by
  have hbusy : (s.busyToWait c).stat =
      if s.stat c = coroStatBusy then Function.update s.stat c coroStatWait else s.stat := by
    unfold busyToWait
    by_cases hc : s.stat c = coroStatBusy
    · rw [if_pos hc, if_pos hc, setStat, hc]
      rfl
    · rw [if_neg hc, if_neg hc]
  have hkeep : s.busyToWait c = { s with stat := (s.busyToWait c).stat } := by
    unfold busyToWait
    split <;> rfl
  obtain ⟨_, _, h⟩ := Fallible.bind_eq_ok.mp h
  rw [hkeep] at h
  cases hpre : s.coroPre c with
  | none =>
      simp only [hpre] at h
      have hs' := Except.ok.inj h
      rw [coroContext_of_ne_nil (by exact hself), coroTransfer_eq (by exact hrun)] at hs'
      refine ⟨fun p hp => (nomatch hp), ?_⟩
      rw [← hs', switchBack, hpre, hbusy]
  | some p =>
      simp only [hpre] at h
      obtain ⟨_, hplive, h⟩ := Fallible.bind_eq_ok.mp h
      have hpstat : (s.busyToWait c).stat p = coroStatWait := by
        by_contra hne
        rw [if_pos hne] at h
        cases h
      have hpstack : s.stack (some p) ≠ [] := by
        by_cases hpc : p = c
        · rwa [hpc]
        · refine hstack p (checkLive_eq_ok.mp hplive) ?_
          rw [hbusy] at hpstat
          split at hpstat
          · rwa [Function.update_of_ne hpc] at hpstat
          · exact hpstat
      rw [if_neg (not_not.mpr hpstat)] at h
      have hs' := Except.ok.inj h
      rw [coroContext_of_ne_nil (c := c), coroContext_of_ne_nil (c := p),
        coroTransfer_eq (by exact hrun)] at hs'
      · refine ⟨fun q hq => ?_, ?_⟩
        · obtain rfl := Option.some.inj hq
          exact ⟨checkLive_eq_ok.mp hplive, hpstat⟩
        · rw [← hs', switchBack, hpre]
          simp only [setStat, hpstat, hbusy]
          rfl
      · exact hpstack
      · exact hself

end Sched

end BoostCoro.Coroutine
