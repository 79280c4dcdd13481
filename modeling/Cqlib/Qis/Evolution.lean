import Cqlib.Circuit.Gate.Inverse
import Cqlib.Circuit.Transform
import Cqlib.Qis.Hamiltonian

/-!
# Pauli evolution

`evolution.rs`: the rotation about a Pauli string as gates on a circuit, and the product
formulas for a Hamiltonian over it.
-/

open Cqlib.Lib Cqlib.Lib.StateResult

namespace Cqlib

attribute [local instance] Lib.atLeastTwo_two

/-- `val * factor`, where the factor is a number. -/
noncomputable def F64.mulFinite : F64 → ℝ → F64
  | .finite val, factor => .finite (val * factor)
  | .nonFinite .nan, _ => .nonFinite .nan
  | .nonFinite .infinity, factor =>
    .nonFinite (if 0 < factor then .infinity else if factor < 0 then .negInfinity else .nan)
  | .nonFinite .negInfinity, factor =>
    .nonFinite (if 0 < factor then .negInfinity else if factor < 0 then .infinity else .nan)

noncomputable def multiplyAngleByFactor {P : Type} [ProductParameter P] (angle : ParameterValue P)
    (factor : ℝ) : ParameterValue P :=
  match angle with
  | .fixed val => .fixed (val.mulFinite factor)
  | .param param => .param (ProductParameter.mul (Parameter.ofFinite factor) param)

/-- `Parameter::from(ParameterValue)`. -/
def Parameter.ofParameterValue {P : Type} [Parameter P] :
    ParameterValue P → Except CircuitError P
  | .param p => .ok p
  | .fixed f => Parameter.ofFixed f

namespace Circuit

variable {P : Type} [DecidableEq P] [ProductParameter P]

/-! ## Gate methods -/

def h (qubit : Qubit) : CircuitM P Unit := append (.standard .H) [qubit] [] none

def s (qubit : Qubit) : CircuitM P Unit := append (.standard .S) [qubit] [] none

def sdg (qubit : Qubit) : CircuitM P Unit := append (.standard .SDG) [qubit] [] none

def cx (control target : Qubit) : CircuitM P Unit :=
  append (.standard .CX) [control, target] [] none

def rz (qubit : Qubit) (theta : ParameterValue P) : CircuitM P Unit :=
  append (.standard .RZ) [qubit] [theta] none

end Circuit

namespace Qis

variable {P : Type} [DecidableEq P] [ProductParameter P] {n : ℕ}

/-! ## Rotations -/

def PauliString.nonIdentityPositions (pauli : PauliString n) : List (ℕ × Pauli) :=
  ((List.range n).map fun i => (i, pauli.getPauli i)).filter fun position => position.2 ≠ .I

/-- The qubits of the letters. The places are in the list, whose length was checked. -/
def PauliString.transformations (pauli : PauliString n) (qubits : List Qubit) :
    List (Qubit × Pauli) :=
  pauli.nonIdentityPositions.map fun (idx, pauliOp) => (qubits.getD idx 0, pauliOp)

def toZBasis : Qubit × Pauli → CircuitM P Unit
  | (qubit, .X) => Circuit.h qubit
  | (qubit, .Y) => do
    Circuit.sdg qubit
    Circuit.h qubit
  | (_, .Z) => pure ()
  | (_, .I) => throw .panicked

def fromZBasis : Qubit × Pauli → CircuitM P Unit
  | (qubit, .X) => Circuit.h qubit
  | (qubit, .Y) => do
    Circuit.h qubit
    Circuit.s qubit
  | (_, .Z) => pure ()
  | (_, .I) => throw .panicked

def addGlobalPhase (angle : ParameterValue P) : CircuitM P Unit := do
  let c ← get
  let currentPhase ← liftExcept (Circuit.storedParameter c.parameters c.globalPhase)
  let globalPhaseParam ← liftExcept (Parameter.ofParameterValue angle)
  Circuit.setGlobalPhase (Parameter.add currentPhase globalPhaseParam)

/-- The gates for a string with letters, the last one at `lastQubit`. -/
def appendRotation (transformations : List (Qubit × Pauli)) (lastQubit : Qubit)
    (angle : ParameterValue P) : CircuitM P Unit := do
  let chain := transformations.zip transformations.tail
  transformations.forM toZBasis
  chain.forM fun (curr, next) => Circuit.cx curr.1 next.1
  Circuit.rz lastQubit angle
  chain.reverse.forM fun (curr, next) => Circuit.cx curr.1 next.1
  transformations.reverse.forM fromZBasis

/-- The rotation of the letters, or the phase of a string without letters. -/
noncomputable def rotateLetters (transformations : List (Qubit × Pauli))
    (adjustedAngle : ParameterValue P) : CircuitM P Unit :=
  match transformations.getLast? with
  | none => addGlobalPhase (multiplyAngleByFactor adjustedAngle (-0.5))
  | some (lastQubit, _) => appendRotation transformations lastQubit adjustedAngle

noncomputable def pauliEvolution (pauli : PauliString n) (angle : ParameterValue P)
    (qubits : List Qubit) : CircuitM P Unit := do
  if qubits.length ≠ n then throw (.qubitCountMismatch n qubits.length)
  if (1e-10 : ℚ) < |(pauli.phase.toComplex.im : ℚ)| then
    throw (.invalidOperation "Pauli string phase must be Hermitian (±1)")
  let adjustedAngle :=
    if pauli.phase.toComplex.re < 0 then multiplyAngleByFactor angle (-1) else angle
  rotateLetters (pauli.transformations qubits) adjustedAngle

/-! ## Product formulas -/

inductive TrotterMode where
  | firstOrder
  | secondOrder
  | randomized (seed : BitVec 64)
  deriving DecidableEq

/-- The generator of the `rand` library. -/
class StdRng (R : Type) where
  seedFromU64 : BitVec 64 → R
  shuffle : R → List ℕ → List ℕ × R

/-- The errors of a call under another name. A panic is none. -/
def mapCircuitError (f : CircuitError → CircuitError) (m : CircuitM P Unit) : CircuitM P Unit :=
  ExceptT.mk fun c =>
    ((exec m c).1.mapError fun e => if e = .panicked then .panicked else f e, (exec m c).2)

noncomputable def evolveTerm (terms : List (PauliString n × ℂ)) (angles : List (ParameterValue P))
    (qubits : List Qubit) (idx : ℕ) : CircuitM P Unit :=
  match terms[idx]?, angles[idx]? with
  | some (pauli, _), some angle =>
    mapCircuitError (fun e => .invalidOperation ("Failed to add Pauli evolution: " ++ e.display))
      (pauliEvolution pauli angle qubits)
  | _, _ => throw .panicked

def nextOrder {R : Type} [StdRng R] : Option R → List ℕ → List ℕ × Option R
  | some rng, indices =>
    ((StdRng.shuffle rng indices).1, some (StdRng.shuffle rng indices).2)
  | none, indices => (indices, none)

/-- The steps of the first order, where a generator shuffles the terms before each of them. -/
noncomputable def firstOrderSteps {R : Type} [StdRng R] (evolve : ℕ → CircuitM P Unit) :
    ℕ → Option R → List ℕ → CircuitM P Unit
  | 0, _, _ => pure ()
  | steps + 1, rng, indices => do
    (nextOrder rng indices).1.forM evolve
    firstOrderSteps evolve steps (nextOrder rng indices).2 (nextOrder rng indices).1

noncomputable def trotterFirstOrderCore {R : Type} [StdRng R] (terms : List (PauliString n × ℂ))
    (t : ParameterValue P) (steps : ℕ) (qubits : List Qubit) (rng : Option R) :
    CircuitM P Unit :=
  let angles := terms.map fun (_, coeff) => multiplyAngleByFactor t (2 * coeff.re / steps)
  firstOrderSteps (evolveTerm terms angles qubits) steps rng (List.range terms.length)

noncomputable def secondOrderSteps (evolve : ℕ → CircuitM P Unit) (indices : List ℕ) :
    ℕ → CircuitM P Unit
  | 0 => pure ()
  | steps + 1 => do
    indices.forM evolve
    indices.reverse.forM evolve
    secondOrderSteps evolve indices steps

noncomputable def trotterSecondOrderCore (terms : List (PauliString n × ℂ))
    (t : ParameterValue P) (steps : ℕ) (qubits : List Qubit) : CircuitM P Unit :=
  let angles := terms.map fun (_, coeff) => multiplyAngleByFactor t (coeff.re / steps)
  secondOrderSteps (evolveTerm terms angles qubits) (List.range terms.length) steps

noncomputable def trotterCore (Rng : Type) [StdRng Rng] (terms : List (PauliString n × ℂ))
    (t : ParameterValue P) (steps : ℕ) (qubits : List Qubit) : TrotterMode → CircuitM P Unit
  | .firstOrder => trotterFirstOrderCore terms t steps qubits (none : Option Rng)
  | .randomized seed =>
    trotterFirstOrderCore terms t steps qubits (some (StdRng.seedFromU64 seed : Rng))
  | .secondOrder => trotterSecondOrderCore terms t steps qubits

/-- `err_map`, where a panic is none of its errors. -/
def evolutionResult : Except CircuitError Unit × Circuit P → Except Failure (Circuit P)
  | (.ok (), circuit) => .ok circuit
  | (.error .panicked, _) => .error .panic
  | (.error e, _) => .error (.error (.unsupportedOperation
      ("Failed to add Pauli evolution: " ++ e.display)))

def buildCircuit (circuitId : Classical.CircuitId) (numQubits : ℕ)
    (m : List Qubit → CircuitM P Unit) : Except Failure (Circuit P) :=
  let circuit : Circuit P := .new circuitId numQubits
  evolutionResult (exec (m circuit.qubits.toList) circuit)

namespace Hamiltonian

def allTermsCommute (self : Hamiltonian n) : Bool :=
  decide (self.terms.Pairwise fun a b => a.1.commutesWith b.1 = true)

noncomputable def toTrotterCircuit (Rng : Type) [StdRng Rng] (circuitId : Classical.CircuitId)
    (self : Hamiltonian n) (time : F64) (steps : ℕ) (mode : TrotterMode) :
    Except Failure (Circuit P) := do
  if steps = 0 then
    throw (.error (.invalidParameterValue "Trotter steps must be greater than 0"))
  if self.terms.isEmpty then
    throw (.error (.invalidParameterValue
      "Cannot create Trotter circuit from empty Hamiltonian"))
  if ∃ term ∈ self.simplify.terms, 1e-10 < |term.2.im| then
    throw (.error .notHermitian)
  buildCircuit circuitId n fun qubits =>
    trotterCore Rng self.simplify.terms (.fixed time) steps qubits mode

noncomputable def toEvolutionCircuit (Rng : Type) [StdRng Rng] (circuitId : Classical.CircuitId)
    (self : Hamiltonian n) (time : F64) (steps : ℕ) (mode : TrotterMode) :
    Except Failure (Circuit P) := do
  if steps = 0 then
    throw (.error (.invalidParameterValue "Trotter steps must be greater than 0"))
  if self.terms.isEmpty then
    throw (.error (.invalidParameterValue
      "Cannot create evolution circuit from empty Hamiltonian"))
  if ∃ term ∈ self.simplify.terms, 1e-10 < |term.2.im| then
    throw (.error .notHermitian)
  buildCircuit circuitId n fun qubits =>
    if self.simplify.allTermsCommute then
      self.simplify.terms.forM fun (pauli, coeff) =>
        pauliEvolution pauli (.fixed (time.mulFinite (2 * coeff.re))) qubits
    else trotterCore Rng self.simplify.terms (.fixed time) steps qubits mode

end Hamiltonian

end Qis

end Cqlib
