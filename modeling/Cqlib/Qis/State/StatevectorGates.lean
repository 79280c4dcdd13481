import Cqlib.Circuit.Error
import Cqlib.Lib.Result
import Cqlib.Lib.StridedOperator
import Cqlib.Circuit.Gate.StandardGate

/-!
# Statevectors

The amplitudes of `statevector.rs` in index order, bit `q` of an index being qubit `q`. The parallel
loops run over the same chunks and are not told apart.
-/

open Cqlib.Lib Cqlib.Circuit

namespace Cqlib.Qis

/-- `2 ^ n` amplitudes; the array is read below that index only. -/
structure Statevector (n : ℕ) where
  data : ℕ → ℂ

namespace Statevector

variable {n : ℕ}

def vector {n : ℕ} (self : Statevector n) : Fin (2 ^ n) → ℂ := fun i => self.data i

/-- The state `|0...0⟩`. -/
noncomputable def new (n : ℕ) : Statevector n := ⟨fun i => if i = 0 then 1 else 0⟩

/-! ## Checks -/

def validateQubit (_ : Statevector n) (qubit : ℕ) : Except QisError Unit := do
  if n = 0 then
    throw (.invalidParameterValue "no valid qubit indices in a zero-qubit system")
  if qubit ≥ n then
    throw (.indexOutOfBounds qubit (n - 1))

def validateTwoQubits (self : Statevector n) (q0 q1 : ℕ) : Except QisError Unit := do
  self.validateQubit q0
  self.validateQubit q1
  if q0 = q1 then
    throw (.invalidParameterValue "Qubit indices must be distinct")

/-- Every qubit is in range and none of those before it; `place` ends the message. -/
def validateDistinct (self : Statevector n) (place : String) (qubits : List ℕ) :
    Except QisError Unit :=
  qubits.zipIdx.forM fun (q, i) => do
    self.validateQubit q
    if q ∈ qubits.take i then
      throw (.invalidParameterValue s!"Duplicate qubit index {q} in {place}")

def validateQubits (self : Statevector n) (qubits : List ℕ) : Except QisError Unit :=
  self.validateDistinct "gate operation" qubits

/-! ## Loops over the amplitudes -/

def overPairs (self : Statevector n) (qubit : ℕ) (f : ℂ × ℂ → ℂ × ℂ) : Statevector n :=
  ⟨pairKernel qubit f self.data⟩

def overUpper (self : Statevector n) (qubit : ℕ) (f : ℂ → ℂ) : Statevector n :=
  ⟨upperKernel qubit f self.data⟩

/-- The fours of amplitudes that differ in the two qubits: `((v00, v10), (v01, v11))`, the
first digit being the greater of the qubits. -/
def overQuads (self : Statevector n) (q0 q1 : ℕ)
    (f : (ℂ × ℂ) × (ℂ × ℂ) → (ℂ × ℂ) × (ℂ × ℂ)) : Statevector n :=
  let (qMin, qMax) := if q0 < q1 then (q0, q1) else (q1, q0)
  ⟨quadKernel qMax qMin f self.data⟩

/-! ## Unitary gates -/

/-- Multiplies by the matrix on the qubits, the first one listed its most significant bit. -/
def applyUnitaryGate (self : Statevector n) (qubits : List ℕ) (matrix : Array2 ℂ) :
    Except QisError (Statevector n) := do
  let numTargetQubits := qubits.length
  let gateDim := 1 <<< numTargetQubits
  if numTargetQubits = 0 ∨ numTargetQubits > n then
    throw (.invalidParameterValue
      s!"Invalid number of target qubits: {numTargetQubits} (must be 1 to {n})")
  self.validateDistinct "apply_unitary" qubits
  if matrix.dim ≠ (gateDim, gateDim) then
    throw (.invalidParameterValue
      s!"Matrix dimensions {matrix.rows}x{matrix.cols} don't match expected {gateDim}x{gateDim} for {numTargetQubits} qubits")
  return ⟨chunkedBlockKernel qubits matrix self.data⟩

end Statevector

end Cqlib.Qis

/-! ## Gate kernels of the statevector -/

namespace Cqlib.Qis.Statevector

variable {n : ℕ}

noncomputable section

/-! ## One qubit -/

def applyX (self : Statevector n) (qubit : ℕ) : Except QisError (Statevector n) := do
  self.validateQubit qubit
  return self.overPairs qubit fun (a, b) => (b, a)

def applyY (self : Statevector n) (qubit : ℕ) : Except QisError (Statevector n) := do
  self.validateQubit qubit
  return self.overPairs qubit fun (a, b) => (complexNew b.im (-b.re), complexNew (-a.im) a.re)

def applyZ (self : Statevector n) (qubit : ℕ) : Except QisError (Statevector n) := do
  self.validateQubit qubit
  return self.overUpper qubit fun val => -val

def applyH (self : Statevector n) (qubit : ℕ) : Except QisError (Statevector n) := do
  self.validateQubit qubit
  let k := frac1Sqrt2
  return self.overPairs qubit fun (a, b) => (k * (a + b), k * (a - b))

def applyS (self : Statevector n) (qubit : ℕ) : Except QisError (Statevector n) := do
  self.validateQubit qubit
  return self.overUpper qubit fun val => complexNew (-val.im) val.re

def applySdg (self : Statevector n) (qubit : ℕ) : Except QisError (Statevector n) := do
  self.validateQubit qubit
  return self.overUpper qubit fun val => complexNew val.im (-val.re)

def applyT (self : Statevector n) (qubit : ℕ) : Except QisError (Statevector n) := do
  self.validateQubit qubit
  let phase := complexNew frac1Sqrt2 frac1Sqrt2
  return self.overUpper qubit fun val => val * phase

def applyTdg (self : Statevector n) (qubit : ℕ) : Except QisError (Statevector n) := do
  self.validateQubit qubit
  let phase := complexNew frac1Sqrt2 (-frac1Sqrt2)
  return self.overUpper qubit fun val => val * phase

def applyPhase (self : Statevector n) (qubit : ℕ) (theta : ℝ) :
    Except QisError (Statevector n) := do
  self.validateQubit qubit
  if |theta| < 1e-15 then
    return self
  let phase := fromPolar 1 theta
  return self.overUpper qubit fun val => val * phase

def applyU (self : Statevector n) (qubit : ℕ) (theta phi lambda : ℝ) :
    Except QisError (Statevector n) := do
  self.validateQubit qubit
  if |theta| < 1e-15 then
    return ← self.applyPhase qubit (lambda + phi)
  let halfTheta := theta * 0.5
  let c := Real.cos halfTheta
  let s := Real.sin halfTheta
  let phasePhi := fromPolar 1 phi
  let phaseLambda := fromPolar 1 lambda
  let phasePhiLambda := fromPolar 1 (phi + lambda)
  let u00 := complexNew c 0
  let u01 := -phaseLambda * s
  let u10 := phasePhi * s
  let u11 := phasePhiLambda * c
  return self.overPairs qubit fun (a, b) => (u00 * a + u01 * b, u10 * a + u11 * b)

def applyRx (self : Statevector n) (qubit : ℕ) (theta : ℝ) : Except QisError (Statevector n) := do
  self.validateQubit qubit
  if |theta| < 1e-15 then
    return self
  let halfTheta := theta * 0.5
  let c := Real.cos halfTheta
  let s := Real.sin halfTheta
  return self.overPairs qubit fun (a, b) =>
    (complexNew (a.re * c + b.im * s) (a.im * c - b.re * s),
      complexNew (b.re * c + a.im * s) (b.im * c - a.re * s))

def applyRy (self : Statevector n) (qubit : ℕ) (theta : ℝ) : Except QisError (Statevector n) := do
  self.validateQubit qubit
  if |theta| < 1e-15 then
    return self
  let halfTheta := theta * 0.5
  let c := Real.cos halfTheta
  let s := Real.sin halfTheta
  return self.overPairs qubit fun (a, b) => (a * c - b * s, a * s + b * c)

def applyRz (self : Statevector n) (qubit : ℕ) (theta : ℝ) : Except QisError (Statevector n) := do
  self.validateQubit qubit
  if |theta| < 1e-15 then
    return self
  let halfTheta := theta * 0.5
  let phase0 := fromPolar 1 (-halfTheta)
  let phase1 := fromPolar 1 halfTheta
  return self.overPairs qubit fun (a, b) => (a * phase0, b * phase1)

def applyX2p (self : Statevector n) (qubit : ℕ) : Except QisError (Statevector n) := do
  self.validateQubit qubit
  let k := frac1Sqrt2
  return self.overPairs qubit fun (a, b) =>
    (complexNew (k * (a.re + b.im)) (k * (a.im - b.re)),
      complexNew (k * (b.re + a.im)) (k * (b.im - a.re)))

def applyX2m (self : Statevector n) (qubit : ℕ) : Except QisError (Statevector n) := do
  self.validateQubit qubit
  let k := frac1Sqrt2
  return self.overPairs qubit fun (a, b) =>
    (complexNew (k * (a.re - b.im)) (k * (a.im + b.re)),
      complexNew (k * (b.re - a.im)) (k * (b.im + a.re)))

def applyY2p (self : Statevector n) (qubit : ℕ) : Except QisError (Statevector n) := do
  self.validateQubit qubit
  let k := frac1Sqrt2
  return self.overPairs qubit fun (a, b) => (k * (a - b), k * (a + b))

def applyY2m (self : Statevector n) (qubit : ℕ) : Except QisError (Statevector n) := do
  self.validateQubit qubit
  let k := frac1Sqrt2
  return self.overPairs qubit fun (a, b) => (k * (a + b), k * (b - a))

/-- The loop of `apply_xy2p` and `apply_xy2m`; `turn` is `-i` for one and `i` for the other. -/
def overXy2 (self : Statevector n) (qubit : ℕ) (turn : ℂ) (theta : ℝ) : Statevector n :=
  let k := frac1Sqrt2
  let phase := fromPolar 1 theta
  let phaseConj := star phase
  let coef01 := turn * phaseConj * k
  let coef10 := turn * phase * k
  let kComplex := complexNew k 0
  self.overPairs qubit fun (a, b) => (kComplex * a + coef01 * b, coef10 * a + kComplex * b)

def applyXy2p (self : Statevector n) (qubit : ℕ) (theta : ℝ) :
    Except QisError (Statevector n) := do
  self.validateQubit qubit
  return self.overXy2 qubit (complexNew 0 (-1)) theta

def applyXy2m (self : Statevector n) (qubit : ℕ) (theta : ℝ) :
    Except QisError (Statevector n) := do
  self.validateQubit qubit
  return self.overXy2 qubit (complexNew 0 1) theta

def applyXy (self : Statevector n) (qubit : ℕ) (theta : ℝ) : Except QisError (Statevector n) := do
  self.validateQubit qubit
  let phase := fromPolar 1 theta
  let phaseConj := star phase
  let negI := complexNew 0 (-1)
  let u01 := negI * phaseConj
  let u10 := negI * phase
  return self.overPairs qubit fun (a, b) => (u01 * b, u10 * a)

def applyRxy (self : Statevector n) (qubit : ℕ) (theta phi : ℝ) :
    Except QisError (Statevector n) := do
  self.validateQubit qubit
  if |theta| < 1e-15 then
    return self
  let halfTheta := theta * 0.5
  let c := Real.cos halfTheta
  let s := Real.sin halfTheta
  let u01 := complexNew (-s * Real.sin phi) (-s * Real.cos phi)
  let u10 := complexNew (s * Real.sin phi) (-s * Real.cos phi)
  return self.overPairs qubit fun (a, b) => (a * c + b * u01, a * u10 + b * c)

/-! ## Two qubits -/

def applySwap (self : Statevector n) (q0 q1 : ℕ) : Except QisError (Statevector n) := do
  self.validateTwoQubits q0 q1
  return self.overQuads q0 q1 fun ((v00, v10), (v01, v11)) => ((v00, v01), (v10, v11))

/-- The fours split by the control: `f` sees the amplitudes with the target clear and set. -/
def overControlled (self : Statevector n) (control target : ℕ) (f : ℂ × ℂ → ℂ × ℂ) :
    Statevector n :=
  self.overQuads control target fun ((v00, v10), (v01, v11)) =>
    if control < target then
      let (t0, t1) := f (v01, v11)
      ((v00, v10), (t0, t1))
    else
      let (t0, t1) := f (v10, v11)
      ((v00, t0), (v01, t1))

def applyCx (self : Statevector n) (control target : ℕ) : Except QisError (Statevector n) := do
  self.validateTwoQubits control target
  return self.overControlled control target fun (a, b) => (b, a)

def applyCy (self : Statevector n) (control target : ℕ) : Except QisError (Statevector n) := do
  self.validateTwoQubits control target
  return self.overControlled control target fun (a, b) =>
    (complexNew b.im (-b.re), complexNew (-a.im) a.re)

/-- Only the part with the greater qubit set is split again. -/
def applyCz (self : Statevector n) (q0 q1 : ℕ) : Except QisError (Statevector n) := do
  self.validateTwoQubits q0 q1
  let (qMin, qMax) := if q0 < q1 then (q0, q1) else (q1, q0)
  let distMax := 1 <<< qMax
  let distMin := 1 <<< qMin
  return ⟨forChunks (2 * distMax) (Lib.overUpper distMax
    (forChunks (2 * distMin) (Lib.overUpper distMin (forEach fun val => -val)))) self.data⟩

def applyRxx (self : Statevector n) (q0 q1 : ℕ) (theta : ℝ) :
    Except QisError (Statevector n) := do
  self.validateTwoQubits q0 q1
  if |theta| < 1e-15 then
    return self
  let halfTheta := theta * 0.5
  let c := Real.cos halfTheta
  let s := Real.sin halfTheta
  return self.overQuads q0 q1 fun ((a, cAmp), (b, d)) =>
    ((c * a + complexNew 0 (-s) * d, complexNew 0 (-s) * b + c * cAmp),
      (c * b + complexNew 0 (-s) * cAmp, complexNew 0 (-s) * a + c * d))

def applyRyy (self : Statevector n) (q0 q1 : ℕ) (theta : ℝ) :
    Except QisError (Statevector n) := do
  self.validateTwoQubits q0 q1
  if |theta| < 1e-15 then
    return self
  let halfTheta := theta * 0.5
  let c := Real.cos halfTheta
  let s := Real.sin halfTheta
  return self.overQuads q0 q1 fun ((a, cAmp), (b, d)) =>
    ((c * a + complexNew 0 s * d, complexNew 0 (-s) * b + c * cAmp),
      (c * b + complexNew 0 (-s) * cAmp, complexNew 0 s * a + c * d))

def applyRzz (self : Statevector n) (q0 q1 : ℕ) (theta : ℝ) :
    Except QisError (Statevector n) := do
  self.validateTwoQubits q0 q1
  if |theta| < 1e-15 then
    return self
  let halfTheta := theta * 0.5
  let phaseEven := fromPolar 1 (-halfTheta)
  let phaseOdd := fromPolar 1 halfTheta
  return self.overQuads q0 q1 fun ((a, c), (b, d)) =>
    ((a * phaseEven, c * phaseOdd), (b * phaseOdd, d * phaseEven))

def applyRzx (self : Statevector n) (q0 q1 : ℕ) (theta : ℝ) :
    Except QisError (Statevector n) := do
  self.validateTwoQubits q0 q1
  if |theta| < 1e-15 then
    return self
  let halfTheta := theta * 0.5
  let c := Real.cos halfTheta
  let s := Real.sin halfTheta
  return self.overQuads q0 q1 fun ((a, cAmp), (b, d)) =>
    if q0 < q1 then
      ((c * a + complexNew 0 (-s) * cAmp, complexNew 0 (-s) * a + c * cAmp),
        (c * b + complexNew 0 s * d, complexNew 0 s * b + c * d))
    else
      ((c * a + complexNew 0 (-s) * b, c * cAmp + complexNew 0 s * d),
        (complexNew 0 (-s) * a + c * b, complexNew 0 s * cAmp + c * d))

def applyCrx (self : Statevector n) (control target : ℕ) (theta : ℝ) :
    Except QisError (Statevector n) := do
  self.validateTwoQubits control target
  if |theta| < 1e-15 then
    return self
  let halfTheta := theta * 0.5
  let c := Real.cos halfTheta
  let s := Real.sin halfTheta
  return self.overControlled control target fun (a, b) =>
    (complexNew (c * a.re + s * b.im) (c * a.im - s * b.re),
      complexNew (s * a.im + c * b.re) (-s * a.re + c * b.im))

def applyCry (self : Statevector n) (control target : ℕ) (theta : ℝ) :
    Except QisError (Statevector n) := do
  self.validateTwoQubits control target
  if |theta| < 1e-15 then
    return self
  let halfTheta := theta * 0.5
  let c := Real.cos halfTheta
  let s := Real.sin halfTheta
  return self.overControlled control target fun (a, b) => (c * a - s * b, s * a + c * b)

def applyCrz (self : Statevector n) (control target : ℕ) (theta : ℝ) :
    Except QisError (Statevector n) := do
  self.validateTwoQubits control target
  if |theta| < 1e-15 then
    return self
  let halfTheta := theta * 0.5
  let phase0 := fromPolar 1 (-halfTheta)
  let phase1 := fromPolar 1 halfTheta
  return self.overControlled control target fun (a, b) => (a * phase0, b * phase1)

def applyFsim (self : Statevector n) (q0 q1 : ℕ) (theta phi : ℝ) :
    Except QisError (Statevector n) := do
  self.validateTwoQubits q0 q1
  let c := Real.cos theta
  let s := Real.sin theta
  let phase11 := fromPolar 1 (-phi)
  return self.overQuads q0 q1 fun ((v00, cAmp), (b, d)) =>
    ((v00, complexNew 0 (-s) * b + c * cAmp), (c * b + complexNew 0 (-s) * cAmp, d * phase11))

/-! ## Three qubits and none -/

/-- The loops of `apply_ccx` by where the target stands among the three qubits. -/
def overCcx (c0 c1 target : ℕ) : (ℕ → ℂ) → ℕ → ℂ :=
  let swap := forEach fun (p : ℂ × ℂ) => (p.2, p.1)
  match [(c0, 0), (c1, 0), (target, 1)].insertionSort (fun a b => a.1 ≤ b.1) with
  | [(q0, k0), (q1, k1), (q2, k2)] =>
    let d0 := 1 <<< q0
    let d1 := 1 <<< q1
    let d2 := 1 <<< q2
    match (k0, k1, k2) with
    | (0, 0, 1) =>
      forChunks (2 * d2) (overHalves d2 (forChunks (2 * d1) (Lib.overUpper d1
        (forChunks (2 * d0) (Lib.overUpper d0 swap)))))
    | (0, 1, 0) =>
      forChunks (2 * d2) (Lib.overUpper d2 (forChunks (2 * d1) (overHalves d1
        (forChunks (2 * d0) (Lib.overUpper d0 swap)))))
    | (1, 0, 0) =>
      forChunks (2 * d2) (Lib.overUpper d2 (forChunks (2 * d1) (Lib.overUpper d1
        (forChunks (2 * d0) (overHalves d0 swap)))))
    | _ => id -- the source marks these as unreachable
  | _ => id

def applyCcx (self : Statevector n) (c0 c1 target : ℕ) : Except QisError (Statevector n) := do
  self.validateQubits [c0, c1, target]
  return ⟨overCcx c0 c1 target self.data⟩

def applyGphase (self : Statevector n) (phi : ℝ) : Except QisError (Statevector n) := do
  if |phi| < 1e-15 then
    return self
  let phase := fromPolar 1 phi
  return ⟨fun i => self.data i * phase⟩

/-! ## Dispatch -/

def applyStandardGate (self : Statevector n) (gate : StandardGate) (qubits : List ℕ)
    (params : List ℝ) : Except QisError (Statevector n) := do
  if qubits.length ≠ gate.numQubits then
    throw (.invalidParameterValue
      s!"Gate {gate.name} requires {gate.numQubits} qubits, got {qubits.length}")
  if params.length ≠ gate.numParams then
    throw (.invalidParameterValue
      s!"Gate {gate.name} requires {gate.numParams} parameters, got {params.length}")
  let qubit := fun i => qubits.getD i 0
  let param := fun i => params.getD i 0
  match gate with
  | .I => return self
  | .X => self.applyX (qubit 0)
  | .Y => self.applyY (qubit 0)
  | .Z => self.applyZ (qubit 0)
  | .H => self.applyH (qubit 0)
  | .S => self.applyS (qubit 0)
  | .SDG => self.applySdg (qubit 0)
  | .T => self.applyT (qubit 0)
  | .TDG => self.applyTdg (qubit 0)
  | .RX => self.applyRx (qubit 0) (param 0)
  | .RY => self.applyRy (qubit 0) (param 0)
  | .RZ => self.applyRz (qubit 0) (param 0)
  | .Phase => self.applyPhase (qubit 0) (param 0)
  | .X2P => self.applyX2p (qubit 0)
  | .X2M => self.applyX2m (qubit 0)
  | .Y2P => self.applyY2p (qubit 0)
  | .Y2M => self.applyY2m (qubit 0)
  | .RXY => self.applyRxy (qubit 0) (param 0) (param 1)
  | .XY => self.applyXy (qubit 0) (param 0)
  | .XY2P => self.applyXy2p (qubit 0) (param 0)
  | .XY2M => self.applyXy2m (qubit 0) (param 0)
  | .U => self.applyU (qubit 0) (param 0) (param 1) (param 2)
  | .GPhase => self.applyGphase (param 0)
  | .CX => self.applyCx (qubit 0) (qubit 1)
  | .CY => self.applyCy (qubit 0) (qubit 1)
  | .CZ => self.applyCz (qubit 0) (qubit 1)
  | .SWAP => self.applySwap (qubit 0) (qubit 1)
  | .RXX => self.applyRxx (qubit 0) (qubit 1) (param 0)
  | .RYY => self.applyRyy (qubit 0) (qubit 1) (param 0)
  | .RZZ => self.applyRzz (qubit 0) (qubit 1) (param 0)
  | .RZX => self.applyRzx (qubit 0) (qubit 1) (param 0)
  | .CRX => self.applyCrx (qubit 0) (qubit 1) (param 0)
  | .CRY => self.applyCry (qubit 0) (qubit 1) (param 0)
  | .CRZ => self.applyCrz (qubit 0) (qubit 1) (param 0)
  | .CCX => self.applyCcx (qubit 0) (qubit 1) (qubit 2)
  | .FSIM => self.applyFsim (qubit 0) (qubit 1) (param 0) (param 1)

end

end Cqlib.Qis.Statevector
