import BoostCoro.Lib.Fallible
/-!
# Runs of a fallible transition system

A transition system that at each input may refuse it (`none`), fail, or move on
and emit events. Runs are finite sequences of accepted inputs that obey a
discipline; an invariant of every step is an invariant of every run.
-/

namespace Transition

variable {σ ι ε τ : Type}

/-- A step function: `none` when the input is not accepted in that state. -/
abbrev StepFn (σ ι ε τ : Type) := σ → ι → Option (Except ε (σ × List τ))

/-- The runs whose inputs all obey `ok`, with the events they emit. -/
inductive Run (step : StepFn σ ι ε τ) (ok : σ → ι → Prop) (s : σ) : List τ → σ → Prop
  | refl : Run step ok s [] s
  | snoc {s' s'' : σ} {tr evs : List τ} {i : ι} (hrun : Run step ok s tr s')
      (hok : ok s' i) (hstep : step s' i = some (.ok (s'', evs))) :
      Run step ok s (tr ++ evs) s''

namespace Run

variable {step : StepFn σ ι ε τ} {ok : σ → ι → Prop}

theorem single {s s' : σ} {evs : List τ} {i : ι} (hok : ok s i)
    (hstep : step s i = some (.ok (s', evs))) : Run step ok s evs s' := by
  have h := (Run.refl : Run step ok s [] s).snoc hok hstep
  rwa [List.nil_append] at h

theorem trans {s s' s'' : σ} {tr tr' : List τ} (h : Run step ok s tr s')
    (h' : Run step ok s' tr' s'') : Run step ok s (tr ++ tr') s'' := by
  induction h' with
  | refl => rwa [List.append_nil]
  | snoc _ hok hstep ih =>
      rw [← List.append_assoc]
      exact ih.snoc hok hstep

/-- A discipline that the others imply in the states of an invariant. -/
theorem mono_of_invariant {I : σ → Prop} {ok' : σ → ι → Prop}
    (hstep : ∀ s i s' evs, I s → ok s i → step s i = some (.ok (s', evs)) → I s')
    (himp : ∀ s i, I s → ok s i → ok' s i) {s s' : σ} {tr : List τ} (h : Run step ok s tr s')
    (hs : I s) : I s' ∧ Run step ok' s tr s' := by
  induction h with
  | refl => exact ⟨hs, .refl⟩
  | snoc _ hok hst ih =>
      obtain ⟨hI, hrun⟩ := ih
      exact ⟨hstep _ _ _ _ hI hok hst, hrun.snoc (himp _ _ hI hok) hst⟩

/-- A run that obeys a discipline obeys a weaker one. -/
theorem mono {ok' : σ → ι → Prop} (himp : ∀ s i, ok s i → ok' s i) {s s' : σ} {tr : List τ}
    (h : Run step ok s tr s') : Run step ok' s tr s' :=
  (h.mono_of_invariant (I := fun _ => True) (fun _ _ _ _ _ _ _ => trivial)
    (fun s i _ hok => himp s i hok) trivial).2

/-- A run that is not empty has a first step. -/
theorem head_cases {s s' : σ} {tr : List τ} (h : Run step ok s tr s') :
    s' = s ∧ tr = [] ∨ ∃ i s₁ evs tr₁, ok s i ∧ step s i = some (.ok (s₁, evs)) ∧
      Run step ok s₁ tr₁ s' ∧ tr = evs ++ tr₁ := by
  induction h with
  | refl => exact .inl ⟨rfl, rfl⟩
  | snoc _ hok hstep ih =>
      rcases ih with ⟨rfl, rfl⟩ | ⟨i, s₁, evs, tr₁, hok₁, hstep₁, hrun, rfl⟩
      · exact .inr ⟨_, _, _, [], hok, hstep, .refl, by simp⟩
      · exact .inr ⟨i, s₁, evs, _, hok₁, hstep₁, hrun.snoc hok hstep, List.append_assoc ..⟩

/-- As long as only one input is accepted, a run that goes on follows the run that
gives that input. -/
theorem follows {ok' : σ → ι → Prop} {s t t' : σ} {tr tr' : List τ} (h : Run step ok s tr t)
    (h' : Run step ok' s tr' t')
    (honly : ∀ u i j u' evs, ok u i → step u j = some (.ok (u', evs)) → j = i)
    (hend : ∀ u i, ok u i → u ≠ t') : ∃ tr'', tr' = tr ++ tr'' ∧ Run step ok' t tr'' t' := by
  induction h with
  | refl => exact ⟨tr', rfl, h'⟩
  | @snoc u v _ evs i _ hok hstep ih =>
      obtain ⟨tr'', rfl, hrest⟩ := ih
      rcases hrest.head_cases with ⟨hsame, -⟩ | ⟨j, u₁, evs₁, tr₁, -, hstep₁, hrest₁, rfl⟩
      · exact absurd hsame.symm (hend u i hok)
      · obtain rfl := honly u i j u₁ evs₁ hok hstep₁
        obtain ⟨rfl, rfl⟩ := Prod.mk.inj (Except.ok.inj (Option.some.inj (hstep.symm.trans hstep₁)))
        exact ⟨tr₁, (List.append_assoc ..).symm, hrest₁⟩

/-- Forward simulation: when every step is matched by a run of another system with the same
events, so is every run. -/
theorem simulates {σ' ι' ε' : Type} {step' : StepFn σ' ι' ε' τ} {ok' : σ' → ι' → Prop}
    {R : σ → σ' → Prop}
    (hsim : ∀ s a i s' evs, R s a → ok s i → step s i = some (.ok (s', evs)) →
      ∃ a', Run step' ok' a evs a' ∧ R s' a')
    {s s' : σ} {a : σ'} {tr : List τ} (h : Run step ok s tr s') (hR : R s a) :
    ∃ a', Run step' ok' a tr a' ∧ R s' a' := by
  induction h with
  | refl => exact ⟨a, .refl, hR⟩
  | snoc _ hok hstep ih =>
      obtain ⟨a₁, hrun, hR₁⟩ := ih
      obtain ⟨a₂, hrun₂, hR₂⟩ := hsim _ _ _ _ _ hR₁ hok hstep
      exact ⟨a₂, hrun.trans hrun₂, hR₂⟩

/-- What every step keeps holds in every state a run reaches. -/
theorem invariant {I : σ → Prop}
    (hstep : ∀ s i s' evs, I s → ok s i → step s i = some (.ok (s', evs)) → I s')
    {s s' : σ} {tr : List τ} (h : Run step ok s tr s') (hs : I s) : I s' := by
  induction h with
  | refl => exact hs
  | snoc _ hok hst ih => exact hstep _ _ _ _ ih hok hst

/-- The same for a property of the state and of the events since a given state. -/
theorem invariant_trace {I : List τ → σ → Prop}
    (hstep : ∀ tr s i s' evs, I tr s → ok s i → step s i = some (.ok (s', evs)) →
      I (tr ++ evs) s')
    {s s' : σ} {tr : List τ} (h : Run step ok s tr s') (hs : I [] s) : I tr s' := by
  induction h with
  | refl => exact hs
  | snoc _ hok hst ih => exact hstep _ _ _ _ _ ih hok hst

end Run

/-! ## Disciplines that see the past -/

/-- The system with the events so far as a history variable. -/
def withPast (step : StepFn σ ι ε τ) : StepFn (σ × List τ) ι ε τ := fun q i =>
  match step q.1 i with
  | none => none
  | some (.error e) => some (.error e)
  | some (.ok (s', evs)) => some (.ok ((s', q.2 ++ evs), evs))

/-- The system with a history variable that every event updates, with a view of the
state before the step. -/
def withHistory {γ : Type} (step : StepFn σ ι ε τ) (upd : σ → γ → τ → γ) :
    StepFn (σ × γ) ι ε τ := fun q i =>
  match step q.1 i with
  | none => none
  | some (.error e) => some (.error e)
  | some (.ok (s', evs)) => some (.ok ((s', evs.foldl (upd q.1) q.2), evs))

theorem withHistory_ok {γ : Type} {step : StepFn σ ι ε τ} {upd : σ → γ → τ → γ} {q q' : σ × γ}
    {i : ι} {evs : List τ} : withHistory step upd q i = some (.ok (q', evs)) ↔
      step q.1 i = some (.ok (q'.1, evs)) ∧ q'.2 = evs.foldl (upd q.1) q.2 := by
  unfold withHistory
  split
  next h => simp [h]
  next h => simp [h]
  next s' evs' h =>
    rw [h]
    constructor
    · intro heq
      obtain ⟨rfl, rfl⟩ := Prod.mk.inj (Except.ok.inj (Option.some.inj heq))
      exact ⟨rfl, rfl⟩
    · rintro ⟨heq, hpast⟩
      obtain ⟨rfl, rfl⟩ := Prod.mk.inj (Except.ok.inj (Option.some.inj heq))
      rw [← hpast]

theorem foldl_snoc (past evs : List τ) :
    evs.foldl (fun past o => past ++ [o]) past = past ++ evs := by
  rw [List.foldl_append_eq_append, ← List.flatMap_def, List.flatMap_singleton']

/-- The past is a history that every event is put behind. -/
theorem withPast_eq (step : StepFn σ ι ε τ) :
    withPast step = withHistory step fun _ past o => past ++ [o] := by
  funext q i
  simp only [withPast, withHistory, foldl_snoc]

theorem withPast_ok {step : StepFn σ ι ε τ} {q q' : σ × List τ} {i : ι} {evs : List τ} :
    withPast step q i = some (.ok (q', evs)) ↔
      step q.1 i = some (.ok (q'.1, evs)) ∧ q'.2 = q.2 ++ evs := by
  rw [withPast_eq, withHistory_ok, foldl_snoc]

theorem Run.past_eq {step : StepFn σ ι ε τ} {ok : σ × List τ → ι → Prop} {q q' : σ × List τ}
    {tr : List τ} (h : Run (withPast step) ok q tr q') : q'.2 = q.2 ++ tr := by
  induction h with
  | refl => rw [List.append_nil]
  | snoc _ _ hstep ih => rw [(withPast_ok.mp hstep).2, ih, List.append_assoc]

/-! ## The events since the last of a kind -/

/-- The events after the last one of which `p` holds. -/
def since (p : τ → Bool) (tr : List τ) : List τ :=
  tr.foldl (fun past o => if p o then [] else past ++ [o]) []

theorem since_append {p : τ → Bool} (tr : List τ) {evs : List τ} (h : ∀ o ∈ evs, p o = false) :
    since p (tr ++ evs) = since p tr ++ evs := by
  unfold since
  rw [List.foldl_append]
  generalize tr.foldl _ [] = past
  induction evs generalizing past with
  | nil => simp
  | cons o evs ih =>
      obtain ⟨ho, hevs⟩ := List.forall_mem_cons.mp h
      rw [List.foldl_cons, if_neg (by rw [ho]; decide), ih hevs, List.append_assoc,
        List.singleton_append]

theorem since_concat {p : τ → Bool} (tr : List τ) {o : τ} (h : p o = true) :
    since p (tr ++ [o]) = [] := by
  unfold since
  rw [List.foldl_append, List.foldl_cons, if_pos h, List.foldl_nil]

/-! ## Running a list of inputs -/

/-- Feed a list of inputs, as long as each obeys `ok` and is accepted without
failure. -/
def exec (step : StepFn σ ι ε τ) (ok : σ → ι → Prop) [∀ s i, Decidable (ok s i)] :
    σ → List ι → Option (σ × List τ)
  | s, [] => some (s, [])
  | s, i :: is =>
    if ok s i then
      match step s i with
      | some (.ok (s', evs)) =>
        match exec step ok s' is with
        | some (s'', tr) => some (s'', evs ++ tr)
        | none => none
      | _ => none
    else none

/-- The first of several inputs takes its step, then the others take theirs. -/
theorem exec_cons {step : StepFn σ ι ε τ} {ok : σ → ι → Prop} [∀ s i, Decidable (ok s i)]
    {s s' : σ} {tr : List τ} {i : ι} {is : List ι} :
    exec step ok s (i :: is) = some (s', tr) ↔ ok s i ∧ ∃ s₁ evs tr₁,
      step s i = some (.ok (s₁, evs)) ∧ exec step ok s₁ is = some (s', tr₁) ∧ tr = evs ++ tr₁ := by
  rw [exec]
  constructor
  · intro h
    split at h
    next hok =>
      split at h
      next s₁ evs hstep =>
        split at h
        next s₂ tr₂ hrest =>
          obtain ⟨rfl, rfl⟩ := Prod.mk.inj (Option.some.inj h)
          exact ⟨hok, s₁, evs, tr₂, hstep, hrest, rfl⟩
        next => cases h
      next => cases h
    next => cases h
  · rintro ⟨hok, s₁, evs, tr₁, hstep, hrest, rfl⟩
    rw [if_pos hok, hstep]
    simp only [hrest]

theorem run_of_exec {step : StepFn σ ι ε τ} {ok : σ → ι → Prop}
    [∀ s i, Decidable (ok s i)] {s s' : σ} {tr : List τ} {is : List ι}
    (h : exec step ok s is = some (s', tr)) : Run step ok s tr s' := by
  induction is generalizing s tr with
  | nil =>
      simp only [exec, Option.some.injEq, Prod.mk.injEq] at h
      rw [← h.1, ← h.2]
      exact .refl
  | cons i is ih =>
      obtain ⟨hok, s₁, evs, tr₁, hstep, hrest, rfl⟩ := exec_cons.mp h
      exact (Run.single hok hstep).trans (ih hrest)

/-- The step that one input has taken. -/
theorem step_of_exec {step : StepFn σ ι ε τ} {ok : σ → ι → Prop} [∀ s i, Decidable (ok s i)]
    {s s' : σ} {i : ι} {tr : List τ} (h : exec step ok s [i] = some (s', tr)) :
    ok s i ∧ step s i = some (.ok (s', tr)) := by
  obtain ⟨hok, s₁, evs, tr₁, hstep, hrest, rfl⟩ := exec_cons.mp h
  obtain ⟨rfl, rfl⟩ := Prod.mk.inj (Option.some.inj hrest)
  rw [List.append_nil]
  exact ⟨hok, hstep⟩

/-- What every step keeps of the state, of a value that follows the inputs, and of the events
so far. -/
theorem exec_tracks {γ : Type} {step : StepFn σ ι ε τ} {ok : σ → ι → Prop}
    [∀ s i, Decidable (ok s i)] {upd : γ → ι → γ} {I : σ → γ → List τ → Prop}
    (hstep : ∀ s g past i s' evs, I s g past → ok s i → step s i = some (.ok (s', evs)) →
      I s' (upd g i) (past ++ evs))
    {s s' : σ} {g : γ} {past tr : List τ} {is : List ι} (hI : I s g past)
    (h : exec step ok s is = some (s', tr)) : I s' (is.foldl upd g) (past ++ tr) := by
  induction is generalizing s g past tr with
  | nil =>
      simp only [exec, Option.some.injEq, Prod.mk.injEq] at h
      obtain ⟨rfl, rfl⟩ := h
      rwa [List.append_nil]
  | cons i is ih =>
      obtain ⟨hok, s₁, evs, tr₁, hfirst, hrest, rfl⟩ := exec_cons.mp h
      rw [← List.append_assoc]
      exact ih (hstep _ _ _ _ _ _ hI hok hfirst) hrest

/-- A system that can follow every step of another follows every list of its inputs,
with the same events but for their names. -/
theorem exec_follows {σ' τ' : Type} {step : StepFn σ ι ε τ} {step' : StepFn σ' ι ε τ'}
    {ok : σ → ι → Prop} [∀ s i, Decidable (ok s i)] {ok' : σ' → ι → Prop}
    [∀ s i, Decidable (ok' s i)] {R : σ → σ' → Prop} {rename : τ → τ'}
    (hok' : ∀ s i, ok' s i)
    (hstep : ∀ s s' i t evs, R s s' → ok s i → step s i = some (.ok (t, evs)) →
      ∃ t', step' s' i = some (.ok (t', evs.map rename)) ∧ R t t')
    {s t : σ} {s' : σ'} {is : List ι} {tr : List τ} (hR : R s s')
    (h : exec step ok s is = some (t, tr)) :
    ∃ t', exec step' ok' s' is = some (t', tr.map rename) ∧ R t t' := by
  induction is generalizing s s' tr with
  | nil =>
      simp only [exec, Option.some.injEq, Prod.mk.injEq] at h
      obtain ⟨rfl, rfl⟩ := h
      exact ⟨s', rfl, hR⟩
  | cons i is ih =>
      obtain ⟨hok, s₁, evs, tr₁, hfirst, hrest, rfl⟩ := exec_cons.mp h
      obtain ⟨s₁', hfirst', hR₁⟩ := hstep _ _ _ _ _ hR hok hfirst
      obtain ⟨t', hrest', hR'⟩ := ih hR₁ hrest
      refine ⟨t', ?_, hR'⟩
      exact exec_cons.mpr ⟨hok' s' i, s₁', _, _, hfirst', hrest', List.map_append⟩

/-- The run that a list of inputs has taken. -/
theorem run_get {step : StepFn σ ι ε τ} {ok : σ → ι → Prop} [∀ s i, Decidable (ok s i)]
    {s : σ} {is : List ι} (h : (exec step ok s is).isSome = true) :
    Run step ok s ((exec step ok s is).get h).2 ((exec step ok s is).get h).1 :=
  run_of_exec (Option.some_get h).symm

/-- The state and the events after a list of inputs that are all accepted. -/
def after (step : StepFn σ ι ε τ) (ok : σ → ι → Prop) [∀ s i, Decidable (ok s i)] (s : σ)
    (is : List ι) : σ × List τ := (exec step ok s is).getD (s, [])

theorem exec_after {step : StepFn σ ι ε τ} {ok : σ → ι → Prop} [∀ s i, Decidable (ok s i)]
    {s : σ} {is : List ι} (h : (exec step ok s is).isSome = true) :
    exec step ok s is = some ((after step ok s is).1, (after step ok s is).2) := by
  obtain ⟨p, hp⟩ := Option.isSome_iff_exists.mp h
  rw [after, hp]
  rfl

theorem run_after {step : StepFn σ ι ε τ} {ok : σ → ι → Prop} [∀ s i, Decidable (ok s i)]
    {s : σ} {is : List ι} (h : (exec step ok s is).isSome = true) :
    Run step ok s (after step ok s is).2 (after step ok s is).1 :=
  run_of_exec (exec_after h)

theorem step_after {step : StepFn σ ι ε τ} {ok : σ → ι → Prop} [∀ s i, Decidable (ok s i)]
    {s : σ} {i : ι} (h : (exec step ok s [i]).isSome = true) :
    ok s i ∧ step s i = some (.ok ((after step ok s [i]).1, (after step ok s [i]).2)) :=
  step_of_exec (exec_after h)

theorem pastRun_after {step : StepFn σ ι ε τ} {ok : σ × List τ → ι → Prop}
    [∀ q i, Decidable (ok q i)] {s : σ} {is : List ι}
    (h : (exec (withPast step) ok (s, []) is).isSome = true) :
    Run (withPast step) ok (s, []) (after (withPast step) ok (s, []) is).2
      ((after (withPast step) ok (s, []) is).1.1, (after (withPast step) ok (s, []) is).2) := by
  have hrun := run_after h
  have hpast : (after (withPast step) ok (s, []) is).1.2 =
      (after (withPast step) ok (s, []) is).2 := hrun.past_eq
  rw [← hpast] at hrun ⊢
  exact hrun

/-- The failure of one more input after a list of inputs. -/
def faultAfter (step : StepFn σ ι ε τ) (ok : σ → ι → Prop) [∀ s i, Decidable (ok s i)]
    (s : σ) (is : List ι) (i : ι) : Option ε :=
  match exec step ok s is with
  | none => none
  | some (s', _) =>
    match step s' i with
    | some (.error e) => some e
    | _ => none

theorem fault_after {step : StepFn σ ι ε τ} {ok : σ → ι → Prop}
    [∀ s i, Decidable (ok s i)] {s : σ} {is : List ι} {i : ι} {e : ε}
    (h : faultAfter step ok s is i = some e) :
    Run step ok s (after step ok s is).2 (after step ok s is).1 ∧
      step (after step ok s is).1 i = some (.error e) := by
  unfold faultAfter at h
  split at h
  · cases h
  next s' tr hexec =>
    have hafter : after step ok s is = (s', tr) := by rw [after, hexec]; rfl
    rw [hafter]
    split at h
    next e' hstep =>
      rw [Option.some.inj h] at hstep
      exact ⟨run_of_exec hexec, hstep⟩
    next => cases h

theorem run_of_faultAfter {step : StepFn σ ι ε τ} {ok : σ → ι → Prop}
    [∀ s i, Decidable (ok s i)] {s : σ} {is : List ι} {i : ι} {e : ε}
    (h : faultAfter step ok s is i = some e) :
    ∃ tr s', Run step ok s tr s' ∧ step s' i = some (.error e) :=
  ⟨_, _, fault_after h⟩

end Transition
