import Cqlib.Qis.PauliMatrix
import Cqlib.Circuit.Error
import Mathlib.Analysis.Complex.Basic

/-!
# Hamiltonians

Sums of Pauli strings with complex coefficients, as in `hamiltonian.rs`.
-/

open Cqlib.Lib

namespace Cqlib.Qis

/-- `terms`, every string of which acts on `n` qubits. -/
structure Hamiltonian (n : ℕ) where
  terms : List (PauliString n × ℂ)

/-- The bits of a bit vector in the order in which it is compared. -/
def bitOrder {n : ℕ} (v : BitVec n) : List Bool := (List.range n).map v.getLsbD

namespace Hamiltonian

variable {n : ℕ}

noncomputable section

def new (n : ℕ) : Hamiltonian n := ⟨[]⟩

def fromPauli (pauli : PauliString n) : Hamiltonian n := ⟨[(pauli, 1)]⟩

def toMatrix (self : Hamiltonian n) : Array2 ℂ :=
  self.terms.foldl
    (fun matrix (pauli, coefficient) =>
      let term := pauli.toMatrix.mapv fun value => GaussianInt.toComplex value * coefficient
      { matrix with get := fun i j => matrix.get i j + term.get i j })
    (.fromElem (2 ^ n, 2 ^ n) 0)

def sortKey (op : PauliString n) : List Bool ×ₗ List Bool := toLex (bitOrder op.z, bitOrder op.x)

/-- Pushes a merged term unless its coefficient is near zero. -/
def pushTerm (term : PauliString n × ℂ) : List (PauliString n × ℂ) :=
  if ‖term.2‖ > 1e-10 then [term] else []

/-- The loop that merges adjacent identical terms into `current`. -/
def mergeTerms (current : PauliString n × ℂ) : List (PauliString n × ℂ) → List (PauliString n × ℂ)
  | [] => pushTerm current
  | (op, coeff) :: rest =>
    if op.x = current.1.x ∧ op.z = current.1.z then
      mergeTerms (current.1, current.2 + coeff) rest
    else pushTerm current ++ mergeTerms (op, coeff) rest

def absorbPhase (term : PauliString n × ℂ) : PauliString n × ℂ :=
  ({ term.1 with phase := .plus }, term.2 * GaussianInt.toComplex term.1.phase.toComplex)

def simplify (self : Hamiltonian n) : Hamiltonian n :=
  let simplifiedTerms := (self.terms.map absorbPhase).mergeSort fun a b =>
    sortKey a.1 ≤ sortKey b.1
  match simplifiedTerms with
  | [] => ⟨[]⟩
  | first :: rest => ⟨mergeTerms first rest⟩

end

end Hamiltonian

end Cqlib.Qis

/-!
## Expectations over measured states

`PauliString::expectation` of `pauli.rs` and `expectation_probs` of `observable.rs`, with the
masks as words of 64 bits.
-/

open Cqlib.Lib

namespace Cqlib.Qis

inductive Build where
  | checked | unchecked
deriving DecidableEq

/-- `1 << i`. A checked build panics when the bit is not in the word, another one counts round. -/
def shiftedOne (build : Build) (i : ℕ) : Except Failure (BitVec 64) :=
  if i < 64 then .ok (1#64 <<< i)
  else match build with
    | .checked => .error .panic
    | .unchecked => .ok (1#64 <<< (i % 64))

/-- The fold of `z_mask`, from bit `i` on. -/
def maskBits (build : Build) : List Bool → ℕ → BitVec 64 → Except Failure (BitVec 64)
  | [], _, acc => .ok acc
  | bit :: bits, i, acc =>
    if bit then do
      let one ← shiftedOne build i
      maskBits build bits (i + 1) (acc ||| one)
    else maskBits build bits (i + 1) acc

/-- The loop over the characters of a state from the last one on. -/
def stateIndex (build : Build) : List Char → ℕ → BitVec 64 → Except Failure (BitVec 64)
  | [], _, stateIdx => .ok stateIdx
  | c :: chars, i, stateIdx =>
    if c = '1' then do
      let one ← shiftedOne build i
      stateIndex build chars (i + 1) (stateIdx ||| one)
    else if c = '0' then stateIndex build chars (i + 1) stateIdx
    else .error (.error (.pauliStringParseError (.invalidCharacter c)))

noncomputable section

namespace PauliString

variable {n : ℕ}

def zBits (self : PauliString n) : List Bool := (List.range n).map self.z.getLsbD

def expectationLoop (build : Build) (n : ℕ) (zMask : BitVec 64) :
    List (String × ℝ) → ℝ → Except Failure ℝ
  | [], expValue => .ok expValue
  | (stateStr, prob) :: probs, expValue => do
    if stateStr.utf8ByteSize ≠ n then
      throw (.error (.dimensionMismatch n stateStr.utf8ByteSize))
    let stateIdx ← stateIndex build stateStr.toList.reverse 0 0#64
    let overlap := stateIdx &&& zMask
    let parity := countOnes overlap
    let eigenvalue : ℝ := if parity &&& 1 = 0 then 1 else -1
    expectationLoop build n zMask probs (expValue + prob * eigenvalue)

/-- The states come in the order of the map. -/
def expectation (build : Build) (self : PauliString n) (probs : List (String × ℝ)) :
    Except Failure ℝ := do
  if (List.range n).any self.x.getLsbD then return 0
  let zMask ← maskBits build self.zBits 0 0#64
  let globalPhase := self.phase.toComplex.toComplex
  let expValue ← expectationLoop build n zMask probs 0
  return ((expValue : ℂ) * globalPhase).re

/-! ## Measured bases -/

def xBits (self : PauliString n) : List Bool := (List.range n).map self.x.getLsbD

/-- `x_mask` and `z_mask`. -/
def maskWords (build : Build) (self : PauliString n) :
    Except Failure (BitVec 64 × BitVec 64) := do
  let xMask ← maskBits build self.xBits 0 0#64
  let zMask ← maskBits build self.zBits 0 0#64
  return (xMask, zMask)

/-- The `Display` text, the highest qubit first. -/
def display (self : PauliString n) : String :=
  (match self.phase with | .plus => "+" | .i => "+i" | .minus => "-" | .minusI => "-i") ++
    String.ofList ((List.range n).reverse.map fun i => match self.getPauli i with
      | .I => 'I' | .X => 'X' | .Z => 'Z' | .Y => 'Y')

/-- The first measurement whose basis has the letters of the term. -/
def findCompatible (build : Build) (term : BitVec 64 × BitVec 64) :
    List (PauliString n × List (String × ℝ)) → Except Failure (Option (List (String × ℝ)))
  | [] => .ok none
  | (mPauli, probs) :: measurements => do
    let m ← mPauli.maskWords build
    let pActive := term.1 ||| term.2
    if m.1 &&& pActive = term.1 ∧ m.2 &&& pActive = term.2 then return some probs
    else findCompatible build term measurements

def noCompatibleBasis (self : PauliString n) : Failure :=
  .error (.unsupportedOperation
    ("No compatible measurement basis found for term " ++ self.display))

/-- The errors of the loop over the states as the method of a string names them. -/
def stateStringError : Failure → Failure
  | .error (.dimensionMismatch expected actual) => .error (.qubitMismatch expected actual)
  | .error (.pauliStringParseError (.invalidCharacter c)) =>
    .error (.unsupportedOperation
      ("Invalid character '" ++ String.singleton c ++ "' in state string"))
  | failure => failure

/-- The loop over the states is that of `expectation`, with all letters in the mask. -/
def expectationProbs (build : Build) (self : PauliString n)
    (measurements : List (PauliString n × List (String × ℝ))) : Except Failure ℝ := do
  let term ← self.maskWords build
  let pActive := term.1 ||| term.2
  if pActive = 0#64 then return self.phase.toComplex.toComplex.re
  else match ← findCompatible build term measurements with
    | some probs => do
      let expVal ← (expectationLoop build n pActive probs 0).mapError stateStringError
      return ((expVal : ℂ) * self.phase.toComplex.toComplex).re
    | none => throw self.noCompatibleBasis

end PauliString

namespace Hamiltonian

variable {n : ℕ}

def measuredTerm (build : Build) (measurements : List (PauliString n × List (String × ℝ))) :
    PauliString n × ℂ → Except Failure ℝ
  | (termPauli, coeff) => do
    let term ← termPauli.maskWords build
    let pActive := term.1 ||| term.2
    if pActive = 0#64 then return (termPauli.phase.toComplex.toComplex * coeff).re
    else match ← PauliString.findCompatible build term measurements with
      | some probs => do
        let expVal ← PauliString.expectationLoop build n pActive probs 0
        return ((expVal : ℂ) * termPauli.phase.toComplex.toComplex * coeff).re
      | none => throw termPauli.noCompatibleBasis

def expectationProbs (build : Build) (self : Hamiltonian n)
    (measurements : List (PauliString n × List (String × ℝ))) : Except Failure ℝ :=
  self.terms.foldlM
    (fun expectedValue term => do return expectedValue + (← measuredTerm build measurements term)) 0

end Hamiltonian

end

end Cqlib.Qis
