import BoostCoro.Lib.Fallible
/-!
# Refinement of deterministic machines

A concrete machine that may fail against a total abstract one with the same
inputs and outputs. One relation between the states, kept by every input, gives
the same outputs on every run; in particular no run of the concrete machine
fails.
-/

namespace Machine

variable {σ α ι ο ε : Type}

/-- Feed a list of inputs to a machine that may fail, collecting the outputs. -/
def run (exec : σ → ι → Except ε (σ × ο)) : σ → List ι → Except ε (σ × List ο)
  | s, [] => .ok (s, [])
  | s, i :: is => do
    let (s, o) ← exec s i
    let (s, os) ← run exec s is
    return (s, o :: os)

/-- Feed a list of inputs to a total machine. -/
def runSpec (step : α → ι → α × ο) : α → List ι → α × List ο
  | a, [] => (a, [])
  | a, i :: is =>
    let (a, o) := step a i
    let (a, os) := runSpec step a is
    (a, o :: os)

/-- Every concrete step succeeds, gives the abstract output and keeps `R`. -/
def Refines (exec : σ → ι → Except ε (σ × ο)) (step : α → ι → α × ο)
    (R : σ → α → Prop) : Prop :=
  ∀ s a i, R s a → ∃ s', exec s i = .ok (s', (step a i).2) ∧ R s' (step a i).1

theorem Refines.run {exec : σ → ι → Except ε (σ × ο)} {step : α → ι → α × ο}
    {R : σ → α → Prop} (h : Refines exec step R) {s : σ} {a : α} (hR : R s a) (is : List ι) :
    ∃ s', Machine.run exec s is = .ok (s', (runSpec step a is).2) ∧
      R s' (runSpec step a is).1 := by
  induction is generalizing s a with
  | nil => exact ⟨s, rfl, hR⟩
  | cons i is ih =>
      obtain ⟨s₁, hstep, hR₁⟩ := h s a i hR
      obtain ⟨s₂, hrun, hR₂⟩ := ih hR₁
      refine ⟨s₂, ?_, hR₂⟩
      simp [Machine.run, runSpec, hstep, hrun]

end Machine
