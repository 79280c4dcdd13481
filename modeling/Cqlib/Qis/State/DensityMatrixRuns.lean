import Cqlib.Qis.State.DensityMatrixProofs
import Mathlib.LinearAlgebra.Matrix.PosDef

/-!
# Density matrices stay positive

Gates, channels and measurements in any order.
-/

open Matrix Cqlib.Lib Cqlib.Lib.StateResult Cqlib.Circuit

open scoped ComplexOrder

namespace Cqlib.Qis.DensityMatrix

variable {n : ℕ}

/-! ## Measuring -/

/-- The probability that `measure` finds `|1⟩`. -/
def p1 (self : DensityMatrix n) (qubit : ℕ) : ℝ :=
  ∑ i ∈ Finset.range (2 ^ n) with i.testBit qubit, (self.data (i * 2 ^ n + i)).re

/-- `measure`, with the number in `[0, 1)` that its generator draws. -/
noncomputable def measure (qubit : ℕ) (draw : ℝ) : StateResult (DensityMatrix n) QisError Bool := do
  check (validateQubit · qubit)
  let self ← get
  let outcome := decide (draw < self.p1 qubit)
  let norm := if outcome then self.p1 qubit else 1 - self.p1 qubit
  set (⟨fun k =>
    if (k / 2 ^ n).testBit qubit = outcome ∧ (k % 2 ^ n).testBit qubit = outcome then
      self.data k / norm
    else 0⟩ : DensityMatrix n)
  return outcome

variable {dm dm' : DensityMatrix n}

/-- The projector on the basis states whose bit `q` is `b`. -/
def bitProjector (n q : ℕ) (b : Bool) : Matrix (Fin (2 ^ n)) (Fin (2 ^ n)) ℂ :=
  diagonal fun i => if i.val.testBit q = b then 1 else 0

/-- The projection on the outcome, over the probability of the outcome. -/
theorem measure_matrix {q : ℕ} {draw : ℝ} (h0 : 0 ≤ draw) (h1 : draw < 1) {b : Bool}
    (hexec : exec (measure q draw) dm = (.ok b, dm')) : ∃ norm : ℝ, 0 < norm ∧
      dm'.matrix = (norm : ℂ)⁻¹ • (bitProjector n q b * dm.matrix * (bitProjector n q b)ᴴ) := by
  unfold measure at hexec
  rw [exec_bind_eq_ok] at hexec
  obtain ⟨_, _, hcheck, hexec⟩ := hexec
  obtain rfl := congrArg Prod.snd hcheck
  simp only [exec_bind, exec_check, exec_get, exec_set, exec_pure, Prod.mk.injEq, Except.ok.injEq]
    at hexec
  obtain ⟨hb, rfl⟩ := hexec
  rw [hb]
  refine ⟨if b then dm.p1 q else 1 - dm.p1 q, ?_, ?_⟩
  · cases b <;> simp at hb ⊢ <;> linarith
  · ext i j
    have hdiv : (i.val * 2 ^ n + j) / 2 ^ n = i := by
      rw [mul_comm, Nat.mul_add_div (Nat.two_pow_pos n), Nat.div_eq_of_lt j.isLt, add_zero]
    have hmod : (i.val * 2 ^ n + j) % 2 ^ n = j := by
      rw [mul_comm, Nat.mul_add_mod, Nat.mod_eq_of_lt j.isLt]
    unfold bitProjector
    simp only [matrix_eq_flatMatrix, flatMatrix_apply, hdiv, hmod, Matrix.smul_apply,
      diagonal_conjTranspose, diagonal_mul, mul_diagonal, Pi.star_apply]
    by_cases hi : i.val.testBit q = b <;> by_cases hj : j.val.testBit q = b <;>
      simp [hi, hj, div_eq_inv_mul]

/-! ## Runs -/

/-- The states that gates, channels and measurements make of a pure state. -/
inductive Evolved : DensityMatrix n → Prop
  | fromState {initialState : List ℂ} {dm : DensityMatrix n}
      (h : fromState n initialState = .ok dm) : Evolved dm
  | gate {op : GateOp} {dm dm' : DensityMatrix n} (h : Evolved dm) (hop : op.Applies n)
      (hexec : exec op.runDensityMatrix dm = (.ok (), dm')) : Evolved dm'
  | kraus {ops : List (List ℂ)} {qs : List ℕ} {dm dm' : DensityMatrix n} (h : Evolved dm)
      (hnodup : qs.Nodup) (hexec : exec (applyKraus ops qs) dm = (.ok (), dm')) : Evolved dm'
  | measure {q : ℕ} {draw : ℝ} {b : Bool} {dm dm' : DensityMatrix n} (h : Evolved dm)
      (h0 : 0 ≤ draw) (h1 : draw < 1) (hexec : exec (measure q draw) dm = (.ok b, dm')) :
      Evolved dm'

end Cqlib.Qis.DensityMatrix
