import Mathlib.Data.List.Basic

/-!
# Guarded sequences

A list of steps behind one test.
-/

namespace Cqlib.Lib

variable {σ : Type*}

def runSteps (steps : List (σ → σ)) (s : σ) : σ := steps.foldl (fun s step => step s) s

def runGuarded (test : σ → Bool) (steps : List (σ → σ)) (s : σ) : σ :=
  runSteps (steps.map fun step s => if test s then step s else s) s

@[simp] theorem runSteps_nil (s : σ) : runSteps [] s = s := rfl

@[simp] theorem runSteps_cons (step : σ → σ) (steps : List (σ → σ)) (s : σ) :
    runSteps (step :: steps) s = runSteps steps (step s) := rfl

theorem runSteps_append (steps steps' : List (σ → σ)) (s : σ) :
    runSteps (steps ++ steps') s = runSteps steps' (runSteps steps s) := by
  unfold runSteps
  rw [List.foldl_append]

@[simp] theorem runGuarded_nil (test : σ → Bool) (s : σ) : runGuarded test [] s = s := rfl

theorem runGuarded_cons (test : σ → Bool) (step : σ → σ) (steps : List (σ → σ)) (s : σ) :
    runGuarded test (step :: steps) s =
      runGuarded test steps (if test s then step s else s) := rfl

theorem runGuarded_of_false {test : σ → Bool} {s : σ} (h : test s = false)
    (steps : List (σ → σ)) : runGuarded test steps s = s := by
  induction steps with
  | nil => rfl
  | cons step steps ih =>
    rw [runGuarded_cons, h]
    exact ih

/-- No step but the last one changes the result of the test. -/
def KeepsTest (test : σ → Bool) (steps : List (σ → σ)) : Prop :=
  ∀ step ∈ steps.dropLast, ∀ s, test (step s) = test s

theorem runGuarded_of_true {test : σ → Bool} {s : σ} (h : test s = true)
    {steps : List (σ → σ)} (hkeeps : KeepsTest test steps) :
    runGuarded test steps s = runSteps steps s := by
  induction steps generalizing s with
  | nil => rfl
  | cons step steps ih =>
    rw [runGuarded_cons, h, if_pos rfl, runSteps_cons]
    rcases steps with _ | ⟨step', steps⟩
    · rfl
    · unfold KeepsTest at hkeeps
      rw [List.dropLast_cons_cons, List.forall_mem_cons] at hkeeps
      refine ih ?_ hkeeps.2
      rw [hkeeps.1, h]

end Cqlib.Lib
