import Cqlib.Qis.Hamiltonian
import Cqlib.Qis.State.DensityMatrix

/-!
# Observables

Expectation values and variances of `observable.rs`.
-/

open Cqlib.Lib

namespace Cqlib.Qis

noncomputable section

def varianceTolerance : ℝ := 1e-10

/-- The `1` or `-1` that the parity of a masked index gives. -/
def paritySign (masked : ℕ) : ℂ := if indexCountOnes masked % 2 = 1 then -1 else 1

namespace PauliString

variable {n m : ℕ}

/-- `global_phase * y_phase`. -/
def complexFactor (self : PauliString n) : ℂ :=
  GaussianInt.toComplex self.phase.toComplex * GaussianInt.toComplex self.yPhase

/-- The sum over the amplitudes in `expectation_statevector`. -/
def statevectorTerm (self : PauliString n) (svData : ℕ → ℂ) : ℂ :=
  ∑ j ∈ Finset.range (2 ^ n),
    let targetAmp := svData (j ^^^ self.xMask)
    let phaseFactor := self.complexFactor * paritySign (j &&& self.zMask)
    star (svData j) * targetAmp * phaseFactor

/-- The sum over the rows in `expectation_density_matrix`. -/
def densityMatrixTerm (self : PauliString n) (dmData : ℕ → ℂ) : ℂ :=
  ∑ j ∈ Finset.range (2 ^ n),
    let col := j ^^^ self.xMask
    let rhoElem := dmData (j <<< n ||| col)
    let phaseFactor := self.complexFactor * paritySign (j &&& self.zMask)
    rhoElem * phaseFactor

/-- `apply_pauli_string_to_statevector`. -/
def applyToStatevector (self : PauliString n) (svData : ℕ → ℂ) (coeff : ℂ) : ℕ → ℂ := fun j =>
  let baseFactor := coeff * self.complexFactor
  svData (j ^^^ self.xMask) * baseFactor * paritySign (j &&& self.zMask)

end PauliString

def finalizeVariance (display : ℝ → String) (variance : ℝ) : Except QisError ℝ :=
  if variance < -varianceTolerance then
    .error (.invalidParameterValue
      s!"variance computation produced a negative result beyond tolerance: {display variance}")
  else if variance < 0 then .ok 0
  else .ok variance

/-! ## Pauli strings -/

namespace PauliString

variable {n m : ℕ}

def expectationStatevector (self : PauliString n) (sv : Statevector m) : Except QisError ℝ :=
  if m ≠ n then .error (.qubitMismatch n m)
  else .ok (self.statevectorTerm sv.data).re

def expectationDensityMatrix (self : PauliString n) (dm : DensityMatrix m) : Except QisError ℝ :=
  if m ≠ n then .error (.qubitMismatch n m)
  else .ok (self.densityMatrixTerm dm.data).re

def varianceStatevector (display : ℝ → String) (self : PauliString n) (sv : Statevector m) :
    Except QisError ℝ :=
  if m ≠ n then .error (.qubitMismatch n m)
  else match self.phase with
    | .i | .minusI => .error .notHermitian
    | .plus | .minus => do
      let expectation ← self.expectationStatevector sv
      let applied := self.applyToStatevector sv.data 1
      let secondMoment := ∑ j ∈ Finset.range (2 ^ m), Complex.normSq (applied j)
      finalizeVariance display (secondMoment - expectation * expectation)

end PauliString

/-! ## Hamiltonians -/

namespace Hamiltonian

variable {n m : ℕ}

def expectationStatevector (self : Hamiltonian n) (sv : Statevector m) : Except QisError ℝ :=
  if m ≠ n then .error (.qubitMismatch n m)
  else .ok (self.terms.foldl
    (fun expected (pauli, coeff) => expected + (pauli.statevectorTerm sv.data * coeff).re) 0)

def expectationDensityMatrix (self : Hamiltonian n) (dm : DensityMatrix m) : Except QisError ℝ :=
  if m ≠ n then .error (.qubitMismatch n m)
  else .ok (self.terms.foldl
    (fun expected (pauli, coeff) => expected + (pauli.densityMatrixTerm dm.data * coeff).re) 0)

/-- The loop that rejects imaginary coefficients and clears what the tolerance allows. -/
def realTerms (terms : List (PauliString n × ℂ)) : Except QisError (List (PauliString n × ℂ)) :=
  terms.mapM fun (pauli, coeff) =>
    if |coeff.im| > varianceTolerance then .error .notHermitian
    else .ok (pauli, (coeff.re : ℂ))

def varianceStatevector (display : ℝ → String) (self : Hamiltonian n) (sv : Statevector m) :
    Except QisError ℝ :=
  if m ≠ n then .error (.qubitMismatch n m)
  else do
    let simplified := self.simplify
    let terms ← realTerms simplified.terms
    let simplified : Hamiltonian n := ⟨terms⟩
    let expectation ← simplified.expectationStatevector sv
    let applied := simplified.terms.foldl
      (fun (applied : ℕ → ℂ) (pauli, coeff) =>
        fun j => applied j + pauli.applyToStatevector sv.data coeff j) fun _ => 0
    let secondMoment := ∑ j ∈ Finset.range (2 ^ m), Complex.normSq (applied j)
    finalizeVariance display (secondMoment - expectation * expectation)

end Hamiltonian

end

end Cqlib.Qis
